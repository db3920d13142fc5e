/-
Module: FamGraph.Foundation.Memory
Layer: Foundation
Purpose: A word-addressed memory, sequences of writes to it, and segments: consecutive words holding
  a list. `store_segment` is what a block copy leaves behind; `Holds` is the assertion that a list
  lies at an address, with its rule for concatenation.
Trusted boundary: none
Main exports: Memory.store, Memory.segment, Memory.read, Memory.Holds, store_segment, holds_append,
  Holds.read_eq
-/
import Mathlib.Logic.Function.Basic
import Mathlib.Data.List.Basic

namespace Memory

variable {α : Type*}

/-- Perform the writes in order. -/
def store (m : Nat → α) (writes : List (Nat × α)) : Nat → α :=
  writes.foldl (fun m w => Function.update m w.1 w.2) m

/-- The writes that put a list at an address, in ascending order. -/
def segment : Nat → List α → List (Nat × α)
  | _, [] => []
  | a, x :: xs => (a, x) :: segment (a + 1) xs

/-- The `n` words from address `a` on. -/
def read (m : Nat → α) (a n : Nat) : List α := (List.range n).map fun j => m (a + j)

/-- The list lies at the address. -/
def Holds (m : Nat → α) (a : Nat) (xs : List α) : Prop := ∀ k (h : k < xs.length), m (a + k) = xs[k]

@[simp] theorem store_cons (m : Nat → α) (w : Nat × α) (ws : List (Nat × α)) :
    store m (w :: ws) = store (Function.update m w.1 w.2) ws := rfl

/-- What no write goes to stays. -/
theorem store_of_not_mem {m : Nat → α} {ws : List (Nat × α)} {a : Nat} (h : ∀ w ∈ ws, w.1 ≠ a) :
    store m ws a = m a := by
  induction ws generalizing m with
  | nil => rfl
  | cons w ws ih =>
      rw [store_cons, ih fun w' hw' => h w' (List.mem_cons_of_mem w hw')]
      exact Function.update_of_ne (h w List.mem_cons_self).symm _ _

theorem segment_append (a : Nat) (xs ys : List α) :
    segment a (xs ++ ys) = segment a xs ++ segment (a + xs.length) ys := by
  induction xs generalizing a with
  | nil => rfl
  | cons x xs ih =>
      rw [List.cons_append, segment, segment, ih, List.length_cons, List.cons_append]
      congr 3
      omega

@[simp] theorem length_segment (a : Nat) (xs : List α) : (segment a xs).length = xs.length := by
  induction xs generalizing a with
  | nil => rfl
  | cons x xs ih => rw [segment, List.length_cons, List.length_cons, ih]

theorem getElem_segment (a : Nat) (xs : List α) (k : Nat) (h : k < (segment a xs).length) :
    (segment a xs)[k] = (a + k, xs.get ⟨k, by simpa using h⟩) := by
  induction xs generalizing a k with
  | nil => simp at h
  | cons x xs ih =>
      cases k with
      | zero => rfl
      | succ k =>
          simp only [segment, List.getElem_cons_succ, ih]
          congr 1
          omega

theorem le_of_mem_segment {a : Nat} {xs : List α} {w : Nat × α} (h : w ∈ segment a xs) :
    a ≤ w.1 ∧ w.1 < a + xs.length := by
  obtain ⟨k, hk, rfl⟩ := List.getElem_of_mem h
  rw [length_segment] at hk
  rw [getElem_segment]
  exact ⟨Nat.le_add_right a k, Nat.add_lt_add_left hk a⟩

/-- A block copy leaves the list at its address. -/
theorem store_segment (m : Nat → α) (a : Nat) (xs : List α) :
    Holds (store m (segment a xs)) a xs := by
  induction xs generalizing m a with
  | nil =>
      intro k h
      exact absurd h (Nat.not_lt_zero k)
  | cons x xs ih =>
      intro k h
      rw [segment, store_cons]
      cases k with
      | zero =>
          rw [store_of_not_mem]
          · exact Function.update_self a x m
          · intro w hw
            have hlt := (le_of_mem_segment hw).1
            omega
      | succ k =>
          have hrest := ih (Function.update m a x) (a + 1) k (Nat.lt_of_succ_lt_succ h)
          rw [Nat.add_right_comm, Nat.add_assoc] at hrest
          exact hrest

theorem holds_nil (m : Nat → α) (a : Nat) : Holds m a [] := fun k h => absurd h (Nat.not_lt_zero k)

/-- Two lists lie one behind the other exactly if their concatenation lies there. -/
theorem holds_append {m : Nat → α} {a : Nat} {xs ys : List α} :
    Holds m a (xs ++ ys) ↔ Holds m a xs ∧ Holds m (a + xs.length) ys := by
  constructor
  · intro h
    constructor
    · intro k hk
      rw [h k (by rw [List.length_append]; omega), List.getElem_append_left hk]
    · intro k hk
      rw [Nat.add_assoc, h (xs.length + k) (by rw [List.length_append]; omega),
        List.getElem_append_right (Nat.le_add_right _ _)]
      simp only [Nat.add_sub_cancel_left]
  · rintro ⟨hxs, hys⟩ k hk
    rw [List.length_append] at hk
    rcases Nat.lt_or_ge k xs.length with hlt | hge
    · rw [List.getElem_append_left hlt, hxs k hlt]
    · rw [List.getElem_append_right hge, ← hys (k - xs.length) (by omega)]
      congr 1
      omega

@[simp] theorem length_read (m : Nat → α) (a n : Nat) : (read m a n).length = n := by
  rw [read, List.length_map, List.length_range]

/-- Reading a list back from where it lies. -/
theorem Holds.read_eq {m : Nat → α} {a : Nat} {xs : List α} (h : Holds m a xs) :
    read m a xs.length = xs := by
  apply List.ext_getElem (length_read m a xs.length)
  intro k hk hk'
  simp only [read, List.getElem_map, List.getElem_range]
  exact h k hk'

end Memory
