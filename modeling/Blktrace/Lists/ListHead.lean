import Blktrace.Lib.Rings
import Mathlib.Data.BitVec

/-!
# `list.h`

A `struct list_head` is the head of a list or an element of one. All that the functions do they do by reading and
writing such structures at addresses, and this fails where there is none.
-/

namespace Blktrace.Lists

/-- `struct list_head *` -/
abbrev Ptr := BitVec 64

structure ListHead where
  next : Ptr
  prev : Ptr
deriving DecidableEq

/-- Where there is a `struct list_head`. -/
abbrev Heap := Ptr → Option ListHead

def LIST_POISON1 : Ptr := 0x00100100
def LIST_POISON2 : Ptr := 0x00200200

namespace Heap

def next (p : Ptr) (h : Heap) : Option Ptr := (h p).map ListHead.next
def prev (p : Ptr) (h : Heap) : Option Ptr := (h p).map ListHead.prev

def setNext (p v : Ptr) (h : Heap) : Option Heap :=
  (h p).map fun c => Function.update h p (some { c with next := v })

def setPrev (p v : Ptr) (h : Heap) : Option Heap :=
  (h p).map fun c => Function.update h p (some { c with prev := v })

end Heap

/-! ## The functions -/

/-- `INIT_LIST_HEAD` -/
def initListHead (list : Ptr) (h : Heap) : Option Heap := do
  let h ← h.setNext list list
  h.setPrev list list

/-- `__list_add` -/
def addBetween (new prev next : Ptr) (h : Heap) : Option Heap := do
  let h ← h.setPrev next new
  let h ← h.setNext new next
  let h ← h.setPrev new prev
  h.setNext prev new

def listAdd (new head : Ptr) (h : Heap) : Option Heap := do
  addBetween new head (← h.next head) h

def listAddTail (new head : Ptr) (h : Heap) : Option Heap := do
  addBetween new (← h.prev head) head h

/-- `__list_del` -/
def delBetween (prev next : Ptr) (h : Heap) : Option Heap := do
  let h ← h.setPrev next prev
  h.setNext prev next

/-- `__list_del(entry->prev, entry->next)` -/
def delEntry (entry : Ptr) (h : Heap) : Option Heap := do
  delBetween (← h.prev entry) (← h.next entry) h

def listDel (entry : Ptr) (h : Heap) : Option Heap := do
  let h ← delEntry entry h
  let h ← h.setNext entry LIST_POISON1
  h.setPrev entry LIST_POISON2

def listDelInit (entry : Ptr) (h : Heap) : Option Heap := do
  let h ← delEntry entry h
  initListHead entry h

def listMove (list head : Ptr) (h : Heap) : Option Heap := do
  let h ← delEntry list h
  listAdd list head h

def listMoveTail (list head : Ptr) (h : Heap) : Option Heap := do
  let h ← delEntry list h
  listAddTail list head h

def listIsLast (list head : Ptr) (h : Heap) : Option Bool := do
  return (← h.next list) = head

def listEmpty (head : Ptr) (h : Heap) : Option Bool := do
  return (← h.next head) = head

def listEmptyCareful (head : Ptr) (h : Heap) : Option Bool := do
  let next ← h.next head
  return next = head && next = (← h.prev head)

/-- 0 is `NULL`. -/
def listFirst (head : Ptr) (h : Heap) : Option Ptr := do
  if ← listEmpty head h then return 0 else h.next head

/-- `__list_splice` -/
def spliceAll (list head : Ptr) (h : Heap) : Option Heap := do
  let first ← h.next list
  let last ← h.prev list
  let at_ ← h.next head
  let h ← h.setPrev first head
  let h ← h.setNext head first
  let h ← h.setNext last at_
  h.setPrev at_ last

def listSplice (list head : Ptr) (h : Heap) : Option Heap := do
  if ← listEmpty list h then return h else spliceAll list head h

def listSpliceInit (list head : Ptr) (h : Heap) : Option Heap := do
  if ← listEmpty list h then return h
  else
    let h ← spliceAll list head h
    initListHead list h

def listReplace (old new : Ptr) (h : Heap) : Option Heap := do
  let h ← h.setNext new (← h.next old)
  let h ← h.setPrev (← h.next new) new
  let h ← h.setPrev new (← h.prev old)
  h.setNext (← h.prev new) new

def listReplaceInit (old new : Ptr) (h : Heap) : Option Heap := do
  let h ← listReplace old new h
  initListHead old h

/-! ## What a write comes to -/

namespace Heap

/-- Where the structures point; nowhere in particular where there is none. -/
def links (h : Heap) : Rings.Links Ptr :=
  ⟨fun p => ((h p).map ListHead.next).getD 0, fun p => ((h p).map ListHead.prev).getD 0⟩

/-- From `h`, the result is a heap with the same structures and the links `s`. -/
def Sets (h : Heap) (s : Rings.Links Ptr) (result : Option Heap) : Prop :=
  ∃ h', result = some h' ∧ h'.links = s ∧ ∀ p, (h' p).isSome = (h p).isSome

variable {h : Heap} {p v : Ptr}

theorem next_eq (hp : (h p).isSome) : h.next p = some (h.links.next p) := by
  obtain ⟨c, hc⟩ := Option.isSome_iff_exists.mp hp
  simp [next, links, hc]

theorem prev_eq (hp : (h p).isSome) : h.prev p = some (h.links.prev p) := by
  obtain ⟨c, hc⟩ := Option.isSome_iff_exists.mp hp
  simp [prev, links, hc]

theorem sets_setNext (v : Ptr) (hp : (h p).isSome) :
    h.Sets ⟨Function.update h.links.next p v, h.links.prev⟩ (h.setNext p v) := by
  obtain ⟨c, hc⟩ := Option.isSome_iff_exists.mp hp
  refine ⟨Function.update h p (some { c with next := v }), by rw [setNext, hc]; rfl, ?_, fun q => ?_⟩
  · refine Rings.Links.ext (funext fun q => ?_) (funext fun q => ?_)
    all_goals
      by_cases hq : q = p
      · subst hq
        simp [links, hc]
      · simp [links, Function.update_of_ne hq]
  · by_cases hq : q = p
    · subst hq
      simp [hc]
    · rw [Function.update_of_ne hq]

theorem sets_setPrev (v : Ptr) (hp : (h p).isSome) :
    h.Sets ⟨h.links.next, Function.update h.links.prev p v⟩ (h.setPrev p v) := by
  obtain ⟨c, hc⟩ := Option.isSome_iff_exists.mp hp
  refine ⟨Function.update h p (some { c with prev := v }), by rw [setPrev, hc]; rfl, ?_, fun q => ?_⟩
  · refine Rings.Links.ext (funext fun q => ?_) (funext fun q => ?_)
    all_goals
      by_cases hq : q = p
      · subst hq
        simp [links, hc]
      · simp [links, Function.update_of_ne hq]
  · by_cases hq : q = p
    · subst hq
      simp [hc]
    · rw [Function.update_of_ne hq]

theorem Sets.bind {s s' : Rings.Links Ptr} {result : Option Heap} {f : Heap → Option Heap}
    (hresult : h.Sets s result)
    (hf : ∀ h' : Heap, h'.links = s → (∀ p, (h' p).isSome = (h p).isSome) → h'.Sets s' (f h')) :
    h.Sets s' (result >>= f) := by
  obtain ⟨h₁, rfl, hlinks, hcells⟩ := hresult
  obtain ⟨h₂, hf, hlinks', hcells'⟩ := hf h₁ hlinks hcells
  exact ⟨h₂, hf, hlinks', fun p => (hcells' p).trans (hcells p)⟩

end Heap

open Heap

variable {h : Heap} {x y p e : Ptr}

/-- The link back is written first. -/
theorem sets_delBetween (hx : (h x).isSome) (hy : (h y).isSome) :
    h.Sets (h.links.join x y) (delBetween x y h) :=
  (sets_setPrev x hy).bind fun h' hlinks hcells => by
    have hset := sets_setNext (h := h') y ((hcells x).trans hx)
    rw [hlinks] at hset
    exact hset

/-- The link back is written last. -/
theorem sets_setNext_setPrev (hx : (h x).isSome) (hy : (h y).isSome) :
    h.Sets (h.links.join x y) (h.setNext x y >>= fun h => h.setPrev y x) :=
  (sets_setNext y hx).bind fun h' hlinks hcells => by
    have hset := sets_setPrev (h := h') x ((hcells y).trans hy)
    rw [hlinks] at hset
    exact hset

theorem sets_initListHead (hp : (h p).isSome) : h.Sets (h.links.join p p) (initListHead p h) :=
  sets_setNext_setPrev hp hp

theorem sets_addBetween (he : (h e).isSome) (hx : (h x).isSome) (hy : (h y).isSome) :
    h.Sets (h.links.add e x y) (addBetween e x y h) := by
  have hsets : h.Sets (h.links.add e x y) (delBetween e y h >>= fun h' =>
      h'.setPrev e x >>= fun h' => h'.setNext x e) :=
    (sets_delBetween he hy).bind fun h' hlinks hcells => by
      have hset := sets_delBetween (h := h') ((hcells x).trans hx) ((hcells e).trans he)
      rwa [hlinks] at hset
  simpa only [addBetween, delBetween, Option.bind_eq_bind, Option.bind_assoc] using hsets

theorem sets_listAdd (he : (h e).isSome) (hx : (h x).isSome) (hnext : (h (h.links.next x)).isSome) :
    h.Sets (h.links.add e x (h.links.next x)) (listAdd e x h) := by
  rw [listAdd, next_eq hx]
  exact sets_addBetween he hx hnext

theorem sets_listAddTail (he : (h e).isSome) (hx : (h x).isSome) (hprev : (h (h.links.prev x)).isSome) :
    h.Sets (h.links.add e (h.links.prev x) x) (listAddTail e x h) := by
  rw [listAddTail, prev_eq hx]
  exact sets_addBetween he hprev hx

theorem sets_delEntry (he : (h e).isSome) (hprev : (h (h.links.prev e)).isSome)
    (hnext : (h (h.links.next e)).isSome) : h.Sets (h.links.remove e) (delEntry e h) := by
  rw [delEntry, prev_eq he, next_eq he]
  exact sets_delBetween hprev hnext

theorem sets_spliceAll (hx : (h x).isSome) (hy : (h y).isSome) (hnext : (h (h.links.next y)).isSome)
    (hprev : (h (h.links.prev y)).isSome) (hat : (h (h.links.next x)).isSome) :
    h.Sets (h.links.splice y x) (spliceAll y x h) := by
  rw [spliceAll, next_eq hy, prev_eq hy, next_eq hx]
  have hsets : h.Sets (h.links.splice y x) (delBetween x (h.links.next y) h >>= fun h' =>
      h'.setNext (h.links.prev y) (h.links.next x) >>= fun h' => h'.setPrev (h.links.next x) (h.links.prev y)) :=
    (sets_delBetween hx hnext).bind fun h' hlinks hcells => by
      have hset := sets_setNext_setPrev (h := h') ((hcells _).trans hprev) ((hcells _).trans hat)
      rwa [hlinks] at hset
  simpa only [delBetween, Option.bind_eq_bind, Option.bind_assoc, Option.bind_some] using hsets

theorem sets_listReplace (hx : (h x).isSome) (he : (h e).isSome) (hnext : (h (h.links.next x)).isSome)
    (hprev : (h ((h.links.join e (h.links.next x)).prev x)).isSome) :
    h.Sets (h.links.replace x e) (listReplace x e h) := by
  rw [listReplace, next_eq hx, Option.bind_eq_bind, Option.bind_some]
  refine (sets_setNext (h.links.next x) he).bind fun h₁ hlinks₁ hcells₁ => ?_
  have hread₁ : h₁.next e = some (h.links.next x) := by
    rw [next_eq ((hcells₁ e).trans he), hlinks₁]
    exact congrArg some (Function.update_self ..)
  rw [hread₁, Option.bind_eq_bind, Option.bind_some]
  refine (sets_setPrev e ((hcells₁ _).trans hnext)).bind fun h₂ hlinks₂ hcells₂ => ?_
  have hcells : ∀ p, (h₂ p).isSome = (h p).isSome := fun p => (hcells₂ p).trans (hcells₁ p)
  have hjoin : h₂.links = h.links.join e (h.links.next x) := by rw [hlinks₂, hlinks₁]; rfl
  rw [prev_eq ((hcells x).trans hx), hjoin, Option.bind_some]
  refine (sets_setPrev _ ((hcells e).trans he)).bind fun h₃ hlinks₃ hcells₃ => ?_
  have hcells' : ∀ p, (h₃ p).isSome = (h p).isSome := fun p => (hcells₃ p).trans (hcells p)
  have hread₃ : h₃.prev e = some ((h.links.join e (h.links.next x)).prev x) := by
    rw [prev_eq ((hcells' e).trans he), hlinks₃]
    exact congrArg some (Function.update_self ..)
  rw [hread₃, Option.bind_some]
  have hset := sets_setNext (h := h₃) e ((hcells' _).trans hprev)
  rwa [hlinks₃, hjoin] at hset

end Blktrace.Lists
