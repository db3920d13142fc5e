/-
Module: FamGraph.Foundation.NotifiedQueue
Layer: Foundation
Purpose: A queue that announces an entry only when it is armed. The announcement disarms it, so a
  consumer who waits for announcements must arm the queue again, and whatever came in before it did
  so was perhaps not announced. Two properties decide whether a wake-up can get lost: a queue is
  `Alert` when the next entry will not be missed, and `Announced` when what is in it was not.
Trusted boundary: none
Main exports: NotifiedQueue, Alert, Announced
-/
import Mathlib.Data.List.Basic

/-- A queue, whether the next entry is announced, and the announcements nobody has taken. -/
structure NotifiedQueue (α : Type*) where
  entries : List α
  armed : Bool
  notices : Nat
deriving DecidableEq, Repr

namespace NotifiedQueue

variable {α : Type*} {q : NotifiedQueue α}

/-- A new queue announces nothing. -/
def create : NotifiedQueue α := { entries := [], armed := false, notices := 0 }

/-- Have the next entry announced. -/
def arm (q : NotifiedQueue α) : NotifiedQueue α := { q with armed := true }

/-- A new entry: it takes the place behind the others, and is announced if the queue was armed. -/
def push (x : α) (q : NotifiedQueue α) : NotifiedQueue α :=
  { entries := q.entries ++ [x]
    armed := false
    notices := if q.armed then q.notices + 1 else q.notices }

/-- Take an announcement. -/
def take (q : NotifiedQueue α) : NotifiedQueue α := { q with notices := q.notices - 1 }

/-- Take the oldest entry. -/
def pop (q : NotifiedQueue α) : NotifiedQueue α := { q with entries := q.entries.tail }

/-- The next entry is announced, or an announcement is still to be taken. -/
def Alert (q : NotifiedQueue α) : Prop := q.armed = true ∨ 0 < q.notices

/-- Where there is an entry there is an announcement still to be taken. -/
def Announced (q : NotifiedQueue α) : Prop := q.entries ≠ [] → 0 < q.notices

@[simp] theorem arm_entries (q : NotifiedQueue α) : q.arm.entries = q.entries := rfl

@[simp] theorem arm_notices (q : NotifiedQueue α) : q.arm.notices = q.notices := rfl

@[simp] theorem push_entries (x : α) (q : NotifiedQueue α) :
    (q.push x).entries = q.entries ++ [x] := rfl

@[simp] theorem take_entries (q : NotifiedQueue α) : q.take.entries = q.entries := rfl

@[simp] theorem take_notices (q : NotifiedQueue α) : q.take.notices = q.notices - 1 := rfl

@[simp] theorem pop_entries (q : NotifiedQueue α) : q.pop.entries = q.entries.tail := rfl

@[simp] theorem pop_notices (q : NotifiedQueue α) : q.pop.notices = q.notices := rfl

/-- An entry brings one announcement at most. -/
theorem push_notices_le (x : α) (q : NotifiedQueue α) : (q.push x).notices ≤ q.notices + 1 := by
  rw [push]
  split
  · exact Nat.le_refl _
  · exact Nat.le_succ _

theorem alert_arm (q : NotifiedQueue α) : q.arm.Alert := .inl rfl

/-- An alert queue has announced the entry that came in, or had something announced before. -/
theorem Alert.notices_push (h : q.Alert) (x : α) : 0 < (q.push x).notices := by
  cases h with
  | inl harmed =>
      rw [push, if_pos harmed]
      exact Nat.succ_pos _
  | inr hnotices =>
      rw [push]
      split
      · exact Nat.succ_pos _
      · exact hnotices

theorem Alert.push (h : q.Alert) (x : α) : (q.push x).Alert :=
  .inr (h.notices_push x)

theorem Alert.announced_push (h : q.Alert) (x : α) : (q.push x).Announced :=
  fun _ => h.notices_push x

/-- What a consumer takes out makes nothing unannounced of what will come. -/
theorem Alert.pop (h : q.Alert) : q.pop.Alert := h

theorem announced_of_empty (h : q.entries = []) : q.Announced :=
  fun hne => absurd h hne

/-- The wake-up is not lost: a queue without announcements has nothing in it. -/
theorem Announced.entries_eq_nil (h : q.Announced) (hnone : q.notices = 0) : q.entries = [] := by
  by_contra hne
  exact absurd (h hne) (hnone ▸ Nat.lt_irrefl 0)

end NotifiedQueue
