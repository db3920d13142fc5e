/-
Module: FamGraph.Foundation.LocalCounters
Layer: Foundation
Purpose: Counters that each thread keeps for itself, and a total they are moved to from time to
  time. Counting and moving in any order neither loses nor doubles anything: what the counters and
  the total hold together grows by what is counted, and moving leaves it as it is.
Trusted boundary: none
Main exports: LocalCounters, add, move, flush, sum, total_flush_foldl_add
-/
import Mathlib.Algebra.BigOperators.Fin
import Mathlib.Algebra.BigOperators.Group.List.Basic

/-- The counter of each thread, and the total. -/
structure LocalCounters (ι M : Type*) where
  own : ι → M
  total : M

namespace LocalCounters

variable {ι M : Type*} [DecidableEq ι] [AddCommMonoid M]

/-- A thread counts. -/
def add (s : LocalCounters ι M) (i : ι) (m : M) : LocalCounters ι M :=
  { s with own := Function.update s.own i (s.own i + m) }

/-- The counter of one thread is moved to the total. -/
def move (s : LocalCounters ι M) (i : ι) : LocalCounters ι M where
  own := Function.update s.own i 0
  total := s.total + s.own i

/-- The counters of some threads are moved, one after the other. -/
def flush (s : LocalCounters ι M) (order : List ι) : LocalCounters ι M := order.foldl move s

/-- The counters and the total together. -/
def sum [Fintype ι] (s : LocalCounters ι M) : M := s.total + ∑ i, s.own i

theorem flush_cons (s : LocalCounters ι M) (i : ι) (order : List ι) :
    s.flush (i :: order) = (s.move i).flush order := rfl

theorem own_move (s : LocalCounters ι M) (i j : ι) :
    (s.move i).own j = if j = i then 0 else s.own j :=
  Function.update_apply s.own i 0 j

section Sum

variable [Fintype ι]

theorem sum_add (s : LocalCounters ι M) (i : ι) (m : M) : (s.add i m).sum = s.sum + m := by
  rw [sum, sum, add, Finset.sum_update_of_mem (Finset.mem_univ i),
    ← Finset.add_sum_erase _ s.own (Finset.mem_univ i), Finset.sdiff_singleton_eq_erase]
  simp only [add_comm, add_left_comm]

theorem sum_move (s : LocalCounters ι M) (i : ι) : (s.move i).sum = s.sum := by
  rw [sum, sum, move, Finset.sum_update_of_mem (Finset.mem_univ i), zero_add,
    ← Finset.add_sum_erase _ s.own (Finset.mem_univ i), Finset.sdiff_singleton_eq_erase, add_assoc]

theorem sum_flush (s : LocalCounters ι M) (order : List ι) : (s.flush order).sum = s.sum := by
  induction order generalizing s with
  | nil => rfl
  | cons i order ih => rw [flush_cons, ih, sum_move]

theorem sum_foldl_add (s : LocalCounters ι M) (events : List (ι × M)) :
    (events.foldl (fun s e => s.add e.1 e.2) s).sum = s.sum + (events.map Prod.snd).sum := by
  induction events generalizing s with
  | nil => exact (add_zero _).symm
  | cons e events ih => rw [List.foldl_cons, ih, sum_add, List.map_cons, List.sum_cons, add_assoc]

end Sum

/-- Moving a counter leaves those at zero that were there. -/
theorem own_flush_of_eq_zero {s : LocalCounters ι M} {i : ι} (h : s.own i = 0) (order : List ι) :
    (s.flush order).own i = 0 := by
  induction order generalizing s with
  | nil => exact h
  | cons j order ih =>
      rw [flush_cons]
      apply ih
      rw [own_move, h, ite_self]

theorem own_flush {s : LocalCounters ι M} {i : ι} {order : List ι} (hi : i ∈ order) :
    (s.flush order).own i = 0 := by
  induction order generalizing s with
  | nil => exact nomatch hi
  | cons j order ih =>
      rw [flush_cons]
      cases List.mem_cons.1 hi with
      | inl hsame =>
          apply own_flush_of_eq_zero
          rw [own_move, if_pos hsame]
      | inr hrest => exact ih hrest

/-- A round: the threads count, in any order, and all counters are moved. If the counters were at
    zero before, they are so again, and the total has grown by what was counted. -/
theorem total_flush_foldl_add [Fintype ι] {s : LocalCounters ι M} (hs : ∀ i, s.own i = 0)
    {order : List ι} (horder : ∀ i, i ∈ order) (events : List (ι × M)) :
    ((events.foldl (fun s e => s.add e.1 e.2) s).flush order).total =
      s.total + (events.map Prod.snd).sum := by
  have hsum : ∀ {s : LocalCounters ι M}, (∀ i, s.own i = 0) → s.sum = s.total := by
    intro s hs
    rw [sum, Finset.sum_eq_zero fun i _ => hs i, add_zero]
  rw [← hsum fun i => own_flush (horder i), sum_flush, sum_foldl_add, hsum hs]

end LocalCounters
