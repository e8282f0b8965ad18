import Mathlib.Order.Nat

/-!
# Objects in memory

Objects are made one after another and changed in place through their addresses. A heap extends
another one when it still has all of its objects as they were; code that only changes what it has
made itself extends the heap.
-/

namespace Idgs.Common

open Function

/-- The objects by their addresses; those from `next` on are not made yet. -/
structure Heap (α : Type*) where
  next : ℕ
  cell : ℕ → α

namespace Heap

variable {α : Type*} {base h h' : Heap α} {p q : ℕ}

/-- A new object at the address `next`. -/
def new (h : Heap α) (x : α) : Heap α where
  next := h.next + 1
  cell := Function.update h.cell h.next x

/-- An object is changed in place. -/
def set (h : Heap α) (p : ℕ) (x : α) : Heap α := { h with cell := Function.update h.cell p x }

@[simp] theorem new_cell_self (h : Heap α) (x : α) : (h.new x).cell h.next = x :=
  update_self ..

theorem new_cell_of_lt (hp : p < h.next) (x : α) : (h.new x).cell p = h.cell p :=
  update_of_ne hp.ne _ _

@[simp] theorem set_cell_self (h : Heap α) (p : ℕ) (x : α) : (h.set p x).cell p = x :=
  update_self ..

theorem set_cell_of_ne (hp : q ≠ p) (x : α) : (h.set p x).cell q = h.cell q :=
  update_of_ne hp _ _

@[simp] theorem set_cell (h : Heap α) (p : ℕ) : h.set p (h.cell p) = h := by
  rw [set, update_eq_self]

@[simp] theorem set_set (h : Heap α) (p : ℕ) (x y : α) : (h.set p x).set p y = h.set p y := by
  rw [set, set, set, update_idem]

@[simp] theorem new_set (h : Heap α) (x y : α) : (h.new x).set h.next y = h.new y := by
  rw [set, new, new, update_idem]

/-! ## Frames -/

/-- All objects of the first heap are in the second one as they were. -/
structure Extends (base h : Heap α) : Prop where
  next_le : base.next ≤ h.next
  cell_eq : ∀ p < base.next, h.cell p = base.cell p

theorem Extends.refl (h : Heap α) : Extends h h where
  next_le := le_rfl
  cell_eq _ _ := rfl

theorem Extends.trans (hbase : Extends base h) (hh : Extends h h') : Extends base h' where
  next_le := hbase.next_le.trans hh.next_le
  cell_eq p hp := (hh.cell_eq p (hp.trans_le hbase.next_le)).trans (hbase.cell_eq p hp)

theorem Extends.new (hbase : Extends base h) (x : α) : Extends base (h.new x) where
  next_le := hbase.next_le.trans (Nat.le_succ _)
  cell_eq p hp := (new_cell_of_lt (hp.trans_le hbase.next_le) x).trans (hbase.cell_eq p hp)

/-- What was made since may be changed. -/
theorem Extends.set (hbase : Extends base h) (hp : base.next ≤ p) (x : α) :
    Extends base (h.set p x) where
  next_le := hbase.next_le
  cell_eq q hq := (set_cell_of_ne (hq.trans_le hp).ne x).trans (hbase.cell_eq q hq)

end Heap

end Idgs.Common
