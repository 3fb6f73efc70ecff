import Mathlib.Logic.Function.Basic

/-!
# Swirly.Lib.Heap

Objects that are **shared by address**: a heap maps every address to a cell and
hands out fresh addresses in increasing order. Cells are never freed, so an
address that was handed out keeps naming one object for the rest of a run.

Reads are total. A cell at or above `next` has no object in it yet; results
about such cells are never needed, because every address a program holds is
below `next`.
-/

namespace Lib

/-- The address of an object. -/
abbrev Ptr := Nat

/-- A heap of objects of one type. -/
@[ext] structure Heap (α : Type) where
  /-- The object at each address. -/
  cell : Ptr → α
  /-- The first address not handed out yet. -/
  next : Ptr

namespace Heap

variable {α : Type}

instance : CoeFun (Heap α) (fun _ => Ptr → α) := ⟨Heap.cell⟩

/-- Place a new object at the next free address. -/
def alloc (h : Heap α) (a : α) : Heap α :=
  { cell := Function.update h.cell h.next a, next := h.next + 1 }

/-- Change the object at one address. -/
def modify (h : Heap α) (p : Ptr) (f : α → α) : Heap α :=
  { h with cell := Function.update h.cell p (f (h p)) }

@[simp] theorem alloc_next (h : Heap α) (a : α) : (h.alloc a).next = h.next + 1 := rfl

@[simp] theorem alloc_self (h : Heap α) (a : α) : h.alloc a h.next = a := by
  simp [alloc]

/-- What two new objects have in common reads the same at every address. -/
theorem proj_alloc {β : Type} (π : α → β) (h : Heap α) {a b : α} (hab : π a = π b) (q : Ptr) :
    π (h.alloc a q) = π (h.alloc b q) := by
  by_cases hq : q = h.next
  · subst hq; simpa using hab
  · simp [alloc, Function.update_of_ne hq]

theorem alloc_of_lt {h : Heap α} {p : Ptr} (hp : p < h.next) (a : α) : h.alloc a p = h p := by
  simp [alloc, Function.update_of_ne (Nat.ne_of_lt hp)]

@[simp] theorem modify_next (h : Heap α) (p : Ptr) (f : α → α) :
    (h.modify p f).next = h.next := rfl

@[simp] theorem modify_self (h : Heap α) (p : Ptr) (f : α → α) :
    h.modify p f p = f (h p) := by
  simp [modify]

theorem modify_of_ne {h : Heap α} {p q : Ptr} (hq : q ≠ p) (f : α → α) :
    h.modify p f q = h q := by
  simp [modify, Function.update_of_ne hq]

theorem modify_apply (h : Heap α) (p q : Ptr) (f : α → α) :
    h.modify p f q = if q = p then f (h p) else h q := by
  by_cases hq : q = p
  · subst hq; simp
  · rw [modify_of_ne hq, if_neg hq]

/-- A change to a new object makes another new object. -/
theorem modify_alloc (h : Heap α) (a : α) (f : α → α) :
    (h.alloc a).modify h.next f = h.alloc (f a) := by
  simp [modify, alloc]

/-- Two changes to one object are one change. -/
theorem modify_modify (h : Heap α) (p : Ptr) (f g : α → α) :
    (h.modify p f).modify p g = h.modify p (g ∘ f) := by
  simp [modify]

/-- Changes to different objects commute. -/
theorem modify_comm (h : Heap α) {p q : Ptr} (hpq : p ≠ q) (f g : α → α) :
    (h.modify p f).modify q g = (h.modify q g).modify p f := by
  simp [modify, Function.update_of_ne hpq, Function.update_of_ne hpq.symm,
    Function.update_comm hpq]

/-- Only what a change makes of the object matters. -/
theorem modify_congr {h : Heap α} {p : Ptr} {f g : α → α} (hfg : f (h p) = g (h p)) :
    h.modify p f = h.modify p g := by
  simp [modify, hfg]

/-- A change that gives the object back as it was changes nothing. -/
theorem modify_eq_self {h : Heap α} {p : Ptr} {f : α → α} (hf : f (h p) = h p) :
    h.modify p f = h := by
  simp [modify, hf]

/-- A field that a change keeps reads the same at every address. -/
theorem proj_modify {β : Type} (π : α → β) {h : Heap α} {p : Ptr} {f : α → α}
    (hf : π (f (h p)) = π (h p)) (q : Ptr) : π (h.modify p f q) = π (h q) := by
  rw [modify_apply]
  split
  · next hq => rw [hq, hf]
  · rfl

end Heap

end Lib
