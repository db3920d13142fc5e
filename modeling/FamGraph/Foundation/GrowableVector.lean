/-
Module: FamGraph.Foundation.GrowableVector
Layer: Foundation
Purpose: A growable array as a buffer with contents. A buffer has an identity; appending to a full
  one moves the elements to a fresh buffer, so a place taken earlier no longer names anything.
  Whether a place is still good is therefore a matter of identities, and `Grown` says when the first
  one is: as long as the elements fit the first capacity.
Trusted boundary: none
Main exports: GrowthPolicy, GrowableVector, Slot, emplaceBack, setBack, set, Grown,
  Grown.emplaceBack
-/
import Mathlib.Data.List.Basic

/-- How large a buffer is allocated in place of one that is full with so many elements. -/
structure GrowthPolicy where
  next : Nat → Nat
  lt_next : ∀ n, n < next n

/-- The capacity doubles. -/
def GrowthPolicy.doubling : GrowthPolicy where
  next := fun n => max 1 (2 * n)
  lt_next := by
    intro n
    omega

/-- A place: a buffer, and an index into it. -/
structure Slot where
  id : Nat
  index : Nat
deriving DecidableEq, Repr

structure GrowableVector (α : Type*) where
  id : Nat
  capacity : Nat
  items : List α
  length_le : items.length ≤ capacity

namespace GrowableVector

variable {α : Type*}

/-- Nothing is allocated for an empty vector. -/
def empty (id : Nat) : GrowableVector α where
  id := id
  capacity := 0
  items := []
  length_le := Nat.le_refl 0

def slot (v : GrowableVector α) (i : Nat) : Slot := ⟨v.id, i⟩

/-- The last element's place. -/
def back (v : GrowableVector α) : Slot := v.slot (v.items.length - 1)

/-- What a place names; nothing in another buffer. -/
def at? (v : GrowableVector α) (p : Slot) : Option α :=
  if p.id = v.id then v.items[p.index]? else none

/-- Append an element. `fresh` is the next identity, which an allocation uses up. -/
def emplaceBack (policy : GrowthPolicy) (fresh : Nat) (v : GrowableVector α) (x : α) :
    GrowableVector α × Nat :=
  if h : v.items.length < v.capacity then
    ({ v with
        items := v.items ++ [x]
        length_le := by
          rw [List.length_append, List.length_singleton]
          exact h },
      fresh)
  else
    ({ id := fresh
       capacity := policy.next v.items.length
       items := v.items ++ [x]
       length_le := by
        rw [List.length_append, List.length_singleton]
        exact policy.lt_next _ },
      fresh + 1)

/-- Assign to an element. -/
def set (v : GrowableVector α) (i : Nat) (x : α) : GrowableVector α :=
  { v with
    items := v.items.set i x
    length_le := by
      rw [List.length_set]
      exact v.length_le }

/-- Assign to the last element. -/
def setBack (v : GrowableVector α) (x : α) : GrowableVector α := v.set (v.items.length - 1) x

section Api

variable {policy : GrowthPolicy} {fresh : Nat} {v : GrowableVector α} {x y : α}

@[simp] theorem id_set (i : Nat) : (v.set i x).id = v.id := rfl

@[simp] theorem items_set (i : Nat) : (v.set i x).items = v.items.set i x := rfl

@[simp] theorem items_emplaceBack : (v.emplaceBack policy fresh x).1.items = v.items ++ [x] := by
  rw [emplaceBack]
  split <;> rfl

theorem items_emplaceBack_setBack :
    ((v.emplaceBack policy fresh x).1.setBack y).items = v.items ++ [y] := by
  rw [setBack, items_set, items_emplaceBack, List.length_append, List.length_singleton,
    Nat.add_sub_cancel, List.set_append_right _ _ (Nat.le_refl _), Nat.sub_self]
  rfl

theorem back_emplaceBack :
    (v.emplaceBack policy fresh x).1.back =
      ⟨(v.emplaceBack policy fresh x).1.id, v.items.length⟩ := by
  rw [back, slot, items_emplaceBack, List.length_append, List.length_singleton, Nat.add_sub_cancel]

theorem at?_slot (i : Nat) : v.at? (v.slot i) = v.items[i]? := if_pos rfl

end Api

/-! ### Whether the first buffer is still in use -/

/-- A vector that has elements and was first allocated as `first`: either it is still there, or it
    has outgrown the first capacity. -/
structure Grown (policy : GrowthPolicy) (first fresh : Nat) (v : GrowableVector α) : Prop where
  first_le : first ≤ v.id
  id_lt : v.id < fresh
  capacity : v.id = first → v.capacity = policy.next 0
  outgrown : v.id ≠ first → policy.next 0 < v.items.length

section Grown

variable {policy : GrowthPolicy} {first fresh id : Nat} {v : GrowableVector α} {x : α}

theorem grown_first (policy : GrowthPolicy) (fresh id : Nat) (x : α) :
    Grown policy fresh ((empty id).emplaceBack policy fresh x).2
      ((empty id).emplaceBack policy fresh x).1 where
  first_le := Nat.le_refl fresh
  id_lt := Nat.lt_succ_self fresh
  capacity := fun _ => rfl
  outgrown := fun h => absurd rfl h

theorem Grown.emplaceBack (h : Grown policy first fresh v) :
    Grown policy first (v.emplaceBack policy fresh x).2 (v.emplaceBack policy fresh x).1 := by
  have hid := h.id_lt
  have hfirst := h.first_le
  by_cases hroom : v.items.length < v.capacity
  · rw [GrowableVector.emplaceBack, dif_pos hroom]
    refine ⟨hfirst, hid, h.capacity, fun hne => ?_⟩
    simp only [List.length_append, List.length_singleton]
    exact Nat.lt_succ_of_lt (h.outgrown hne)
  · rw [GrowableVector.emplaceBack, dif_neg hroom]
    refine ⟨by simp only; omega, Nat.lt_succ_self _, fun heq => ?_, fun _ => ?_⟩
    · simp only at heq
      omega
    · simp only [List.length_append, List.length_singleton]
      by_cases heq : v.id = first
      · have hcapacity := h.capacity heq
        omega
      · exact Nat.lt_succ_of_lt (h.outgrown heq)

theorem Grown.set (h : Grown policy first fresh v) (i : Nat) :
    Grown policy first fresh (v.set i x) where
  first_le := h.first_le
  id_lt := h.id_lt
  capacity := h.capacity
  outgrown := fun hne => by
    rw [items_set, List.length_set]
    exact h.outgrown hne

/-- Identities only grow. -/
theorem Grown.id_le_emplaceBack (h : Grown policy first fresh v) :
    v.id ≤ (v.emplaceBack policy fresh x).1.id := by
  have hid := h.id_lt
  rw [GrowableVector.emplaceBack]
  split
  · exact Nat.le_refl _
  · exact Nat.le_of_lt hid

/-- The first buffer is in use exactly as long as the elements fit the first capacity. -/
theorem Grown.id_eq_iff (h : Grown policy first fresh v) :
    v.id = first ↔ v.items.length ≤ policy.next 0 := by
  constructor
  · intro heq
    rw [← h.capacity heq]
    exact v.length_le
  · intro hle
    by_contra hne
    exact absurd (h.outgrown hne) (Nat.not_lt.2 hle)

end Grown

end GrowableVector
