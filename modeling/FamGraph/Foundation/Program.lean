/-
Module: FamGraph.Foundation.Program
Layer: Foundation
Purpose: A thread that runs straight-line code, as the list of the operations it has still to do.
  Such a list is a suffix of the program; in a program without repetitions an operation that was
  done is no longer in it, and one that is left has all later ones behind it.
Trusted boundary: none
Main exports: Program.Left, Left.tail, Left.not_mem, Left.mem_of_earlier, Left.last_mem,
  Left.rest_eq
-/
import Mathlib.Data.List.Infix
import Mathlib.Data.List.Nodup

namespace Program

variable {Op : Type*} {program rest : List Op} {op : Op}

/-- Something is left of the program, namely `rest`. -/
structure Left (program rest : List Op) : Prop where
  ne_nil : rest ≠ []
  suffix : rest <:+ program

theorem Left.start (h : program ≠ []) : Left program program := ⟨h, List.suffix_rfl⟩

/-- An operation is done only once. -/
theorem Left.not_mem (h : Left program (op :: rest)) (hnodup : program.Nodup) : op ∉ rest :=
  (List.nodup_cons.1 (h.suffix.sublist.nodup hnodup)).1

theorem Left.tail (h : Left program (op :: rest)) (hrest : rest ≠ []) : Left program rest :=
  ⟨hrest, (List.suffix_cons op rest).trans h.suffix⟩

/-- While an operation is left, so is each later one. -/
theorem Left.mem_of_earlier {pre post : List Op} {op later : Op}
    (h : Left (pre ++ later :: post) rest) (hop : op ∉ later :: post) (hmem : op ∈ rest) :
    later ∈ rest := by
  rcases List.suffix_or_suffix_of_suffix h.suffix (List.suffix_append pre (later :: post)) with
    hinner | houter
  · exact absurd (hinner.mem hmem) hop
  · exact houter.mem List.mem_cons_self

/-- The last operation is left until the end. -/
theorem Left.last_mem {last : Op} (h : Left program rest) (hlast : program.getLast? = some last) :
    last ∈ rest := by
  obtain ⟨pre, rfl⟩ := List.getLast?_eq_some_iff.1 hlast
  rcases List.suffix_or_suffix_of_suffix h.suffix (List.suffix_append pre [last]) with hinner |
    houter
  · rcases List.suffix_cons_iff.1 hinner with hall | hnone
    · rw [hall]
      exact List.mem_singleton_self last
    · exact absurd (List.suffix_nil.1 hnone) h.ne_nil
  · exact houter.mem (List.mem_singleton_self last)

/-- Nothing is left after the last operation. -/
theorem Left.eq_nil_of_last (h : Left program (op :: rest)) (hnodup : program.Nodup)
    (hlast : program.getLast? = some op) : rest = [] := by
  by_contra hrest
  exact h.not_mem hnodup ((h.tail hrest).last_mem hlast)

/-- Something is left after any other operation. -/
theorem Left.tail_of_ne {last : Op} (h : Left program (op :: rest))
    (hlast : program.getLast? = some last) (hne : op ≠ last) : Left program rest := by
  refine h.tail fun hrest => ?_
  have hmem := h.last_mem hlast
  rw [hrest, List.mem_singleton] at hmem
  exact hne hmem.symm

/-- Behind an operation stands what stands behind it in the program. -/
theorem Left.rest_eq {pre post : List Op} (h : Left (pre ++ op :: post) (op :: rest))
    (hnodup : (pre ++ op :: post).Nodup) : rest = post := by
  have hpost : (op :: post).Nodup := (List.nodup_append'.1 hnodup).2.1
  cases List.suffix_or_suffix_of_suffix h.suffix (List.suffix_append pre (op :: post)) with
  | inl hinner =>
      cases List.suffix_cons_iff.1 hinner with
      | inl heq => exact (List.cons.inj heq).2
      | inr hlater => exact absurd (hlater.mem List.mem_cons_self) (List.nodup_cons.1 hpost).1
  | inr houter =>
      cases List.suffix_cons_iff.1 houter with
      | inl heq => exact (List.cons.inj heq).2.symm
      | inr hlater => exact absurd (hlater.mem List.mem_cons_self) (h.not_mem hnodup)

end Program
