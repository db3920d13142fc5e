/-
Module: FamGraph.Foundation.Restream
Layer: Foundation
Purpose: A list that is written to memory through a FIFO of words in flight, where the sender may
  give up after any proper part of the list and send it again from its head. What has arrived is
  then always a prefix: `Arriving` relates memory, words in flight and the length `d` of that
  prefix, and is kept by every delivery and by every send that begins no later than what is sent
  already reaches. A receiver that overwrites some words with a null value beforehand can tell from
  such a word how far the prefix goes. `Final` says that the last word, once sent, is the last in
  flight.
Trusted boundary: none
Main exports: Restream.reach, Restream.InOrder, Restream.Arriving, Arriving.deliver, Arriving.send,
  Arriving.lt_of_ne_null, Restream.Final, Final.deliver
-/
import FamGraph.Foundation.Memory
import Mathlib.Data.List.GetD

namespace Restream

variable {α : Type*}

/-- How much has arrived once the words with these indices are delivered too. -/
def reach (d : Nat) (q : List Nat) : Nat := q.foldl (fun d i => max d (i + 1)) d

/-- No word overtakes one before it in the list that has not arrived. -/
def InOrder : Nat → List Nat → Prop
  | _, [] => True
  | d, i :: q => i ≤ d ∧ InOrder (max d (i + 1)) q

/-- The write of the word with index `i`; `null` stands in beyond the end of the list. -/
def word (null : α) (a : Nat) (xs : List α) (i : Nat) : Nat × α := (a + i, xs.getD i null)

@[simp] theorem reach_nil (d : Nat) : reach d [] = d := rfl

@[simp] theorem reach_cons (d i : Nat) (q : List Nat) :
    reach d (i :: q) = reach (max d (i + 1)) q := rfl

theorem reach_append (d : Nat) (q q' : List Nat) : reach d (q ++ q') = reach (reach d q) q' :=
  List.foldl_append

theorem inOrder_append {d : Nat} {q q' : List Nat} :
    InOrder d (q ++ q') ↔ InOrder d q ∧ InOrder (reach d q) q' := by
  induction q generalizing d with
  | nil => simp [InOrder]
  | cons i q ih => simp only [List.cons_append, InOrder, ih, reach_cons, and_assoc]

/-- Sending on from where the words sent so far reach to. -/
theorem inOrder_range' {d start : Nat} (n : Nat) (h : start ≤ d) :
    InOrder d (List.range' start n) := by
  induction n generalizing d start with
  | zero => exact trivial
  | succ n ih =>
      rw [List.range'_succ]
      exact ⟨h, ih (Nat.le_max_right d (start + 1))⟩

theorem le_reach_range' (d start : Nat) {n : Nat} (hpos : 0 < n) :
    start + n ≤ reach d (List.range' start n) := by
  induction n generalizing d start with
  | zero => exact absurd hpos (Nat.lt_irrefl 0)
  | succ n ih =>
      rw [List.range'_succ, reach_cons]
      rcases Nat.eq_zero_or_pos n with rfl | hn
      · exact Nat.le_max_right d (start + 1)
      · have hrest := ih (max d (start + 1)) (start + 1) hn
        omega

/-- A block of the list, as writes, is a range of indices. -/
theorem segment_eq_map_word (null : α) (a : Nat) (pre ys post : List α) :
    Memory.segment (a + pre.length) ys =
      (List.range' pre.length ys.length).map (word null a (pre ++ ys ++ post)) := by
  apply List.ext_getElem
  · rw [Memory.length_segment, List.length_map, List.length_range']
  · intro k hk hk'
    rw [Memory.length_segment] at hk
    rw [Memory.getElem_segment, List.getElem_map, List.getElem_range', word, Nat.one_mul,
      Nat.add_assoc, List.append_assoc, List.getD_append_right _ _ _ _ (Nat.le_add_right _ _),
      Nat.add_sub_cancel_left, List.getD_append _ _ _ _ hk, List.getD_eq_getElem _ _ hk,
      List.get_eq_getElem]

/-- While `xs` is on its way to address `a`: its first `d` words have arrived, the words with the
    indices `q` are in flight in this order, and the marked words that have not arrived are
    `null`. -/
structure Arriving (null : α) (a : Nat) (xs : List α) (marks : List Nat) (m : Nat → α)
    (q : List Nat) (d : Nat) : Prop where
  le : d ≤ xs.length
  holds : Memory.Holds m a (xs.take d)
  unread : ∀ x ∈ marks, a + d ≤ x → m x = null
  inOrder : InOrder d q
  lt : ∀ i ∈ q, i < xs.length

section Arriving

variable {null : α} {a : Nat} {xs : List α} {marks : List Nat} {m : Nat → α} {q : List Nat}
  {d : Nat}

/-- Before anything is sent. -/
theorem arriving_start (h : ∀ x ∈ marks, m x = null) : Arriving null a xs marks m [] 0 where
  le := Nat.zero_le _
  holds := Memory.holds_nil m a
  unread x hx _ := h x hx
  inOrder := trivial
  lt _ hi := nomatch hi

theorem Arriving.read (h : Arriving null a xs marks m q d) {k : Nat} (hk : k < d) :
    m (a + k) = xs.getD k null := by
  have hlt : k < xs.length := Nat.lt_of_lt_of_le hk h.le
  rw [h.holds k (by rw [List.length_take]; omega), List.getElem_take, List.getD_eq_getElem _ _ hlt]

/-- The next word in flight arrives. -/
theorem Arriving.deliver {i : Nat} (h : Arriving null a xs marks m (i :: q) d) :
    Arriving null a xs marks
      (Function.update m (word null a xs i).1 (word null a xs i).2) q (max d (i + 1)) where
  le := Nat.max_le.2 ⟨h.le, h.lt i List.mem_cons_self⟩
  holds := by
    have hi : i < xs.length := h.lt i List.mem_cons_self
    have hid : i ≤ d := h.inOrder.1
    intro k hk
    rw [List.length_take] at hk
    have hkx : k < xs.length := by omega
    rw [List.getElem_take, word]
    rcases eq_or_ne k i with rfl | hne
    · rw [Function.update_self, List.getD_eq_getElem _ _ hkx]
    · rw [Function.update_of_ne (by simpa using hne), h.read (by omega),
        List.getD_eq_getElem _ _ hkx]
  unread := by
    intro x hx hle
    rw [word, Function.update_of_ne (by simp only; omega)]
    exact h.unread x hx (by omega)
  inOrder := h.inOrder.2
  lt j hj := h.lt j (List.mem_cons_of_mem i hj)

/-- A part of the list is sent, from no further than what is sent already reaches to. -/
theorem Arriving.send (h : Arriving null a xs marks m q d) {start n : Nat}
    (hstart : start ≤ reach d q) (hn : start + n ≤ xs.length) :
    Arriving null a xs marks m (q ++ List.range' start n) d where
  le := h.le
  holds := h.holds
  unread := h.unread
  inOrder := inOrder_append.2 ⟨h.inOrder, inOrder_range' n hstart⟩
  lt := by
    intro i hi
    rcases List.mem_append.1 hi with hq | hr
    · exact h.lt i hq
    · rw [List.mem_range'_1] at hr
      omega

/-- A marked word that is not null has arrived. -/
theorem Arriving.lt_of_ne_null (h : Arriving null a xs marks m q d) {k : Nat} (hk : a + k ∈ marks)
    (hne : m (a + k) ≠ null) : k < d := by
  by_contra hge
  exact hne (h.unread (a + k) hk (by omega))

/-- A part of the list that lies within what has arrived. -/
theorem Arriving.holds_part (h : Arriving null a xs marks m q d) {pre ys post : List α}
    (hxs : xs = pre ++ ys ++ post) (hd : pre.length + ys.length ≤ d) :
    Memory.Holds m (a + pre.length) ys := by
  have htake : xs.take d = pre ++ ys ++ post.take (d - (pre.length + ys.length)) := by
    rw [hxs, List.take_append, List.length_append,
      List.take_of_length_le (by rw [List.length_append]; omega)]
  have hholds := h.holds
  rw [htake, List.append_assoc, Memory.holds_append, Memory.holds_append] at hholds
  exact hholds.2.1

end Arriving

/-- The last of `n` words is in flight at most once, behind all others, and once it has arrived
    nothing is in flight. -/
structure Final (n : Nat) (q : List Nat) (d : Nat) : Prop where
  last : ∀ before after, q = before ++ (n - 1) :: after → after = []
  empty : d = n → q = []

theorem Final.deliver {n i d : Nat} {q : List Nat} (h : Final n (i :: q) d) (hi : i < n)
    (hd : d ≤ n) :
    Final n q (max d (i + 1)) where
  last before after hq := h.last (i :: before) after (congrArg (i :: ·) hq)
  empty hn := by
    rcases Nat.lt_or_ge d n with hlt | hge
    · obtain rfl : i = n - 1 := by omega
      exact h.last [] q rfl
    · exact nomatch h.empty (Nat.le_antisymm hd hge)

theorem final_of_not_mem {n d : Nat} {q : List Nat} (h : n - 1 ∉ q) (hd : d < n) : Final n q d where
  last before _ hq := absurd (hq ▸ List.mem_append_right before List.mem_cons_self) h
  empty hn := absurd hn (Nat.ne_of_lt hd)

/-- Sending the rest of the list, after parts that left out its last word. -/
theorem final_send {n d start k : Nat} {q : List Nat} (h : n - 1 ∉ q) (hd : d < n)
    (hend : start + k = n) :
    Final n (q ++ List.range' start k) d where
  last := by
    intro before after hq
    have hmem : n - 1 ∈ q ++ List.range' start k :=
      hq ▸ List.mem_append_right before List.mem_cons_self
    rcases List.eq_nil_or_concat' after with rfl | ⟨after, z, rfl⟩
    · rfl
    · cases k with
      | zero => exact absurd ((List.mem_append.1 hmem).resolve_right (fun hr => nomatch hr)) h
      | succ k =>
          have hlast : (q ++ List.range' start k) ++ [start + 1 * k] =
              (before ++ (n - 1) :: after) ++ [z] := by
            rw [List.append_assoc, ← List.range'_concat, hq, List.append_assoc, List.cons_append]
          have hinit := (List.append_inj' hlast rfl).1
          have hearly : n - 1 ∈ q ++ List.range' start k :=
            hinit ▸ List.mem_append_right before List.mem_cons_self
          rcases List.mem_append.1 hearly with hq' | hr
          · exact absurd hq' h
          · rw [List.mem_range'_1] at hr
            omega
  empty hn := absurd hn (Nat.ne_of_lt hd)

end Restream
