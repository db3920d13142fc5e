/-
Module: FamGraph.Foundation.BoundedSelection
Layer: Foundation
Purpose: What a buffer of bounded size keeps of a stream when it is to keep the elements with the
  greatest keys: `Selects` relates the elements seen to those kept. The rules follow the three
  things such a buffer does with the next element: add it while there is room, put it in the place
  of an element with the least key, or drop it. The order of the buffer does not matter.
Trusted boundary: none
Main exports: Selects, Selects.add, Selects.replace, Selects.drop, Selects.perm,
  Selects.le_of_not_mem
-/
import Mathlib.Data.List.Basic
import Mathlib.Data.List.Perm.Basic
import Mathlib.Order.Lattice

namespace BoundedSelection

variable {α β : Type*} [LinearOrder α] {key : β → α} {bound : Nat} {seen kept : List β}

/-- `kept` are all elements seen, or `bound` of them such that no other one has a greater key. -/
structure Selects (key : β → α) (bound : Nat) (seen kept : List β) : Prop where
  length : kept.length = min bound seen.length
  split : ∃ dropped, (kept ++ dropped).Perm seen ∧ ∀ d ∈ dropped, ∀ x ∈ kept, key d ≤ key x

theorem Selects.nil : Selects key bound [] [] where
  length := by rw [List.length_nil, Nat.min_zero]
  split := ⟨[], .refl _, fun _ hd => absurd hd List.not_mem_nil⟩

/-- The buffer may be rearranged. -/
theorem Selects.perm (h : Selects key bound seen kept) {kept' : List β} (hperm : kept'.Perm kept) :
    Selects key bound seen kept' where
  length := by rw [hperm.length_eq, h.length]
  split := by
    obtain ⟨dropped, hsplit, hle⟩ := h.split
    exact ⟨dropped, (hperm.append_right dropped).trans hsplit,
      fun d hd x hx => hle d hd x (hperm.mem_iff.1 hx)⟩

/-- With room left nothing has been dropped, and the next element is kept. -/
theorem Selects.add (h : Selects key bound seen kept) (hroom : kept.length < bound) (x : β) :
    Selects key bound (seen ++ [x]) (kept ++ [x]) := by
  obtain ⟨dropped, hsplit, -⟩ := h.split
  have hlength := h.length
  have hcount := hsplit.length_eq
  rw [List.length_append] at hcount
  have hall : dropped = [] := List.eq_nil_of_length_eq_zero (by omega)
  subst hall
  rw [List.append_nil] at hsplit
  refine ⟨?_, [], ?_, fun _ hd => absurd hd List.not_mem_nil⟩
  · rw [List.length_append, List.length_append, List.length_singleton]
    omega
  · rw [List.append_nil]
    exact hsplit.append_right [x]

/-- A full buffer with a least element of smaller key keeps the next element in its place. -/
theorem Selects.replace {least : β} {rest : List β} (h : Selects key bound seen (least :: rest))
    (hfull : bound ≤ (least :: rest).length) (hleast : ∀ y ∈ rest, key least ≤ key y) {x : β}
    (hx : key least < key x) : Selects key bound (seen ++ [x]) (x :: rest) := by
  obtain ⟨dropped, hsplit, hle⟩ := h.split
  have hlength := h.length
  refine ⟨?_, least :: dropped, ?_, ?_⟩
  · rw [List.length_append, List.length_singleton]
    simp only [List.length_cons] at hfull hlength ⊢
    omega
  · calc (x :: rest ++ least :: dropped).Perm (x :: (least :: rest ++ dropped)) :=
          (List.perm_middle).cons x
      _ |>.Perm (x :: seen) := hsplit.cons x
      _ |>.Perm (seen ++ [x]) := (List.perm_append_singleton x seen).symm
  · intro d hd y hy
    have hd' : key d ≤ key least := by
      rcases List.mem_cons.1 hd with rfl | hd
      · exact le_refl _
      · exact hle d hd least List.mem_cons_self
    rcases List.mem_cons.1 hy with rfl | hy
    · exact hd'.trans hx.le
    · exact hd'.trans (hleast y hy)

/-- A full buffer drops an element whose key exceeds none of those kept. -/
theorem Selects.drop (h : Selects key bound seen kept) (hfull : bound ≤ kept.length) {x : β}
    (hx : ∀ y ∈ kept, key x ≤ key y) : Selects key bound (seen ++ [x]) kept := by
  obtain ⟨dropped, hsplit, hle⟩ := h.split
  have hlength := h.length
  refine ⟨?_, dropped ++ [x], ?_, ?_⟩
  · rw [List.length_append, List.length_singleton]
    omega
  · rw [← List.append_assoc]
    exact hsplit.append_right [x]
  · intro d hd y hy
    rcases List.mem_append.1 hd with hd | hd
    · exact hle d hd y hy
    · rw [List.mem_singleton.1 hd]
      exact hx y hy

/-- What is kept has been seen. -/
theorem Selects.mem (h : Selects key bound seen kept) {x : β} (hx : x ∈ kept) : x ∈ seen := by
  obtain ⟨dropped, hsplit, -⟩ := h.split
  exact hsplit.mem_iff.1 (List.mem_append_left dropped hx)

/-- What has been seen and is not kept has no greater key than anything kept. -/
theorem Selects.le_of_not_mem (h : Selects key bound seen kept) {d x : β} (hd : d ∈ seen)
    (hnot : d ∉ kept) (hx : x ∈ kept) : key d ≤ key x := by
  obtain ⟨dropped, hsplit, hle⟩ := h.split
  rcases List.mem_append.1 (hsplit.mem_iff.2 hd) with hkept | hdropped
  · exact absurd hkept hnot
  · exact hle d hdropped x hx

/-- Nothing is kept twice. -/
theorem Selects.nodup_map (h : Selects key bound seen kept) {γ : Type*} {f : β → γ}
    (hseen : (seen.map f).Nodup) : (kept.map f).Nodup := by
  obtain ⟨dropped, hsplit, -⟩ := h.split
  have hall := (hsplit.map f).nodup_iff.2 hseen
  rw [List.map_append] at hall
  exact (List.nodup_append.1 hall).1

end BoundedSelection
