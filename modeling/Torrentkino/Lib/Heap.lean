import Mathlib.Data.List.Nodup

/-!
# Objects on a heap

`malloc`, `free` and pointer accesses for objects of one type.  A reference is
the identity of an object: it is handed out once, so that a pointer to a freed
object stays recognisable as dangling.  Reading a dangling pointer yields
`none`; code that dereferences it has to treat that as a fault.

The heap carries its own well-formedness: no object lives at a reference that
was never handed out.
-/

namespace Torrentkino

/-- Identity of a heap object. -/
abbrev Ref := Nat

/-- Live objects, and the next identity to hand out. -/
structure Heap (α : Type) where
  /-- The object at a reference, if it is live. -/
  get : Ref → Option α
  /-- All references from here on are unused. -/
  fresh : Ref
  /-- Nothing lives at an unused reference. -/
  unused : ∀ r, fresh ≤ r → get r = none

namespace Heap

variable {α : Type}

/-- The heap without objects. -/
def empty : Heap α where
  get := fun _ => none
  fresh := 0
  unused := fun _ _ => rfl

/-- A new object at `h.fresh`. -/
def alloc (h : Heap α) (a : α) : Heap α where
  get := fun r => if r = h.fresh then some a else h.get r
  fresh := h.fresh + 1
  unused := by
    intro r hr
    rw [if_neg (Nat.ne_of_gt hr)]
    exact h.unused r (Nat.le_of_succ_le hr)

/-- Store into a live object; a dangling reference is left dangling. -/
def modify (h : Heap α) (r : Ref) (f : α → α) : Heap α where
  get := fun q => if q = r then (h.get r).map f else h.get q
  fresh := h.fresh
  unused := by
    intro q hq
    by_cases hqr : q = r
    · subst hqr
      simp [h.unused q hq]
    · simp [hqr, h.unused q hq]

/-- The object at `r` is gone. -/
def free (h : Heap α) (r : Ref) : Heap α where
  get := fun q => if q = r then none else h.get q
  fresh := h.fresh
  unused := by
    intro q hq
    simp [h.unused q hq]

/-- Live references have been handed out before. -/
theorem lt_fresh
    {h : Heap α} {r : Ref} {a : α}
    (hr : h.get r = some a) :
    r < h.fresh := by
  by_contra hlt
  rw [h.unused r (Nat.le_of_not_lt hlt)] at hr
  cases hr

/-- An object lives at `r`. -/
def Live (h : Heap α) (r : Ref) : Prop :=
  ∃ a, h.get r = some a

@[simp] theorem get_empty (r : Ref) : (empty : Heap α).get r = none := rfl

@[simp] theorem fresh_alloc (h : Heap α) (a : α) :
    (h.alloc a).fresh = h.fresh + 1 := rfl

@[simp] theorem fresh_modify (h : Heap α) (r : Ref) (f : α → α) :
    (h.modify r f).fresh = h.fresh := rfl

@[simp] theorem fresh_free (h : Heap α) (r : Ref) :
    (h.free r).fresh = h.fresh := rfl

@[simp] theorem get_alloc_self (h : Heap α) (a : α) :
    (h.alloc a).get h.fresh = some a := by
  simp [alloc]

theorem get_alloc_of_ne
    (h : Heap α) (a : α) {r : Ref} (hr : r ≠ h.fresh) :
    (h.alloc a).get r = h.get r := by
  simp [alloc, hr]

/-- Allocation leaves the live objects alone. -/
theorem get_alloc_of_get
    {h : Heap α} {r : Ref} {b : α} (a : α)
    (hr : h.get r = some b) :
    (h.alloc a).get r = some b := by
  rw [get_alloc_of_ne h a (Nat.ne_of_lt (lt_fresh hr)), hr]

@[simp] theorem get_modify_self (h : Heap α) (r : Ref) (f : α → α) :
    (h.modify r f).get r = (h.get r).map f := by
  simp [modify]

theorem get_modify_of_ne
    (h : Heap α) (f : α → α) {q r : Ref} (hq : q ≠ r) :
    (h.modify r f).get q = h.get q := by
  simp [modify, hq]

@[simp] theorem get_free_self (h : Heap α) (r : Ref) :
    (h.free r).get r = none := by
  simp [free]

theorem get_free_of_ne
    (h : Heap α) {q r : Ref} (hq : q ≠ r) :
    (h.free r).get q = h.get q := by
  simp [free, hq]

/-- What is left after `free` was there before. -/
theorem get_of_get_free
    {h : Heap α} {q r : Ref} {a : α} (hget : (h.free r).get q = some a) :
    h.get q = some a := by
  rcases eq_or_ne q r with rfl | hq
  · rw [get_free_self] at hget
    cases hget
  · rwa [get_free_of_ne _ hq] at hget

theorem live_alloc_self (h : Heap α) (a : α) : (h.alloc a).Live h.fresh :=
  ⟨a, get_alloc_self h a⟩

theorem Live.alloc
    {h : Heap α} {r : Ref} (hr : h.Live r) (a : α) :
    (h.alloc a).Live r := by
  obtain ⟨b, hb⟩ := hr
  exact ⟨b, get_alloc_of_get a hb⟩

theorem Live.modify
    {h : Heap α} {r : Ref} (hr : h.Live r) (q : Ref) (f : α → α) :
    (h.modify q f).Live r := by
  obtain ⟨b, hb⟩ := hr
  by_cases hrq : r = q
  · subst hrq
    exact ⟨f b, by simp [hb]⟩
  · exact ⟨b, by rw [get_modify_of_ne h f hrq, hb]⟩

end Heap
end Torrentkino
