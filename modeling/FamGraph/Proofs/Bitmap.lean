/-
Module: FamGraph.Proofs.Bitmap
Layer: Proofs
Purpose: What each member of `Bitmap` does to the set the bitmap stands for and to its count. A set
  bit is one bit of one word, so `setBit` adds exactly its own index; the acting thread's counter
  moves exactly when the set grows, so `Counted` is kept by every operation a kernel applies. Below
  2^32 vertices a counted bitmap is empty exactly when no bit is set.
Trusted boundary: none
Main exports: active_setBit, counted_setBit, counted_setAll, isEmpty_iff
-/
import FamGraph.Core.Bitmap
import Mathlib.Data.BitVec
import Mathlib.Algebra.BigOperators.Group.Finset.Piecewise
import Mathlib.Tactic.Abel
import Mathlib.Tactic.LinearCombination

namespace FamGraph

/-- One summand changes. -/
theorem sum_update_add {ι M : Type*} [Fintype ι] [DecidableEq ι] [AddCommMonoid M] (f : ι → M)
    (i : ι) (x : M) : ∑ j, Function.update f i x j + f i = ∑ j, f j + x := by
  rw [Finset.sum_update_of_mem (Finset.mem_univ i), Finset.sdiff_singleton_eq_erase,
    ← Finset.add_sum_erase _ f (Finset.mem_univ i)]
  abel

namespace Bitmap

variable {threads : Nat}

theorem wordOffset_eq (i : Nat) : wordOffset i = i / 64 := by
  simp [wordOffset, Nat.shiftRight_eq_div_pow]

theorem bitOffset_eq (i : Nat) : bitOffset i = i % 64 := by
  have h : (0x3f : Nat) = 2 ^ 6 - 1 := rfl
  rw [bitOffset, h, Nat.and_two_pow_sub_one_eq_mod]

theorem bitOffset_lt (i : Nat) : bitOffset i < 64 := by
  rw [bitOffset_eq]
  exact Nat.mod_lt _ (by decide)

/-- Word and bit position together are the index. -/
theorem offset_injective {i j : Nat} (hw : wordOffset i = wordOffset j)
    (hb : bitOffset i = bitOffset j) : i = j := by
  rw [wordOffset_eq, wordOffset_eq] at hw
  rw [bitOffset_eq, bitOffset_eq] at hb
  omega

/-- A word masked with one bit is nonzero exactly when the word has that bit. -/
theorem and_mask_ne_zero (x : BitVec 64) {k : Nat} (hk : k < 64) :
    x &&& (1#64 <<< k) ≠ 0#64 ↔ x.getLsbD k = true := by
  constructor
  · intro hne
    by_contra hbit
    apply hne
    ext j hj
    by_cases hjk : j = k
    · subst hjk
      simp_all
    · have : ¬ (k ≤ j ∧ j - k = 0) := by omega
      simp [BitVec.getElem_shiftLeft]
      intro _ h1 h2
      omega
  · intro hbit hzero
    have hget : (x &&& (1#64 <<< k)).getLsbD k = true := by
      simp [hbit, hk]
    rw [hzero] at hget
    simp at hget

theorem active_iff (b : Bitmap threads) (i : Nat) :
    b.Active i ↔ (b.data (wordOffset i)).getLsbD (bitOffset i) = true :=
  and_mask_ne_zero _ (bitOffset_lt i)

@[simp] theorem size_setBit (b : Bitmap threads) (t : Fin threads) (i : Nat) :
    (b.setBit t i).1.size = b.size := rfl

@[simp] theorem size_clear (b : Bitmap threads) : b.clear.size = b.size := rfl

@[simp] theorem size_setAll (b : Bitmap threads) (t : Fin threads) : (b.setAll t).size = b.size :=
  rfl

/-- `setBit` adds its own index and touches no other. -/
@[simp] theorem active_setBit (b : Bitmap threads) (t : Fin threads) (i j : Nat) :
    (b.setBit t i).1.Active j ↔ j = i ∨ b.Active j := by
  rw [active_iff, active_iff]
  by_cases hw : wordOffset j = wordOffset i
  · have hself : (1#64 <<< bitOffset i).getLsbD (bitOffset j) = true ↔ j = i := by
      constructor
      · intro hbit
        have hlt := bitOffset_lt i
        have hle := bitOffset_lt j
        simp only [BitVec.getLsbD_shiftLeft, BitVec.getLsbD_one, Bool.and_eq_true,
          decide_eq_true_eq, Bool.not_eq_true', decide_eq_false_iff_not] at hbit
        exact offset_injective hw (by omega)
      · rintro rfl
        simp [bitOffset_lt]
    simp only [setBit, hw, Function.update_self, BitVec.getLsbD_or, Bool.or_eq_true, hself]
    exact or_comm
  · have hji : j ≠ i := fun h => hw (by rw [h])
    simp [setBit, hw, hji]

theorem not_active_fresh (n i : Nat) : ¬ (fresh n : Bitmap threads).Active i := by
  simp [Active, getBit, fresh]

/-- Every index below `size` lies in a word `clear` and `set_all` write. -/
theorem wordOffset_lt_words {b : Bitmap threads} {i : Nat} (hi : i < b.size) :
    wordOffset i < b.words := by
  rw [words, wordOffset_eq, wordOffset_eq]
  omega

theorem not_active_clear {b : Bitmap threads} {i : Nat} (hi : i < b.size) : ¬ b.clear.Active i := by
  simp [Active, getBit, clear, wordOffset_lt_words hi]

theorem active_setAll {b : Bitmap threads} (t : Fin threads) {i : Nat} (hi : i < b.size) :
    (b.setAll t).Active i := by
  rw [active_iff]
  simp only [setAll, wordOffset_lt_words hi, if_true, BitVec.getLsbD_allOnes]
  exact decide_eq_true (bitOffset_lt i)

@[simp] theorem mem_support {b : Bitmap threads} {i : Nat} :
    i ∈ b.support ↔ i < b.size ∧ b.Active i := by
  simp [support]

theorem support_setBit {b : Bitmap threads} {i : Nat} (t : Fin threads) (hi : i < b.size) :
    (b.setBit t i).1.support = insert i b.support := by
  ext j
  simp only [mem_support, size_setBit, active_setBit, Finset.mem_insert]
  constructor
  · rintro ⟨hj, rfl | hactive⟩
    · exact Or.inl rfl
    · exact Or.inr ⟨hj, hactive⟩
  · rintro (rfl | ⟨hj, hactive⟩)
    · exact ⟨hi, Or.inl rfl⟩
    · exact ⟨hj, Or.inr hactive⟩

/-- The counters move by one exactly when the bit was clear. -/
theorem numSet_setBit (b : Bitmap threads) (t : Fin threads) (i : Nat) :
    (b.setBit t i).1.numSet = b.numSet + if b.Active i then 0#32 else 1#32 := by
  by_cases hactive : b.Active i
  · have hmask : ¬ b.data (wordOffset i) &&& (1#64 <<< bitOffset i) = 0#64 := hactive
    simp only [numSet, setBit, hmask, hactive, if_true, if_false]
    simp
  · have hmask : b.data (wordOffset i) &&& (1#64 <<< bitOffset i) = 0#64 := by
      simpa [Active, getBit] using hactive
    have hsum := sum_update_add b.frontier_size t (b.frontier_size t + 1#32)
    simp only [numSet, setBit, hmask, if_true, hactive, if_false]
    linear_combination hsum

theorem counted_fresh (n : Nat) : (fresh n : Bitmap threads).Counted := by
  have hsupport : (fresh n : Bitmap threads).support = ∅ := by
    ext i
    simp [not_active_fresh]
  rw [Counted, hsupport]
  simp [numSet, fresh]

theorem counted_clear (b : Bitmap threads) : b.clear.Counted := by
  have hsupport : b.clear.support = ∅ := by
    ext i
    simp only [mem_support, size_clear, Finset.notMem_empty, iff_false, not_and]
    exact fun hi => not_active_clear hi
  rw [Counted, hsupport]
  simp [numSet, clear]

theorem counted_setBit {b : Bitmap threads} (t : Fin threads) {i : Nat} (hi : i < b.size)
    (h : b.Counted) : (b.setBit t i).1.Counted := by
  rw [Counted, numSet_setBit, support_setBit t hi, h]
  by_cases hactive : b.Active i
  · have hmem : i ∈ b.support := mem_support.2 ⟨hi, hactive⟩
    simp [hactive, Finset.insert_eq_of_mem hmem]
  · have hmem : i ∉ b.support := fun hmem => hactive (mem_support.1 hmem).2
    rw [if_neg hactive, Finset.card_insert_of_notMem hmem]
    exact (BitVec.ofNat_add_ofNat _ _)

/-- `set_all` counts right on a bitmap nobody has counted in yet. -/
theorem counted_setAll {b : Bitmap threads} (t : Fin threads)
    (hzero : ∀ u, b.frontier_size u = 0#32) :
    (b.setAll t).Counted := by
  have hsupport : (b.setAll t).support = Finset.range b.size := by
    ext i
    simp only [mem_support, size_setAll, Finset.mem_range, and_iff_left_iff_imp]
    exact fun hi => active_setAll t hi
  rw [Counted, hsupport, Finset.card_range, numSet]
  simp only [setAll]
  rw [Finset.sum_update_of_mem (Finset.mem_univ t), Finset.sum_eq_zero (fun u _ => hzero u)]
  simp

/-- A counted bitmap of fewer than 2^32 bits is empty exactly when no bit is set. -/
theorem isEmpty_iff {b : Bitmap threads} (h : b.Counted) (hsize : b.size < 2 ^ 32) :
    b.isEmpty = true ↔ ∀ i < b.size, ¬ b.Active i := by
  have hcard : b.support.card < 2 ^ 32 := by
    have hle : b.support.card ≤ (Finset.range b.size).card := Finset.card_filter_le _ _
    rw [Finset.card_range] at hle
    omega
  have hzero : b.isEmpty = true ↔ b.support.card = 0 := by
    rw [isEmpty, decide_eq_true_eq, h]
    constructor
    · intro heq
      have hval := congrArg BitVec.toNat heq
      rwa [BitVec.toNat_ofNat, BitVec.toNat_ofNat, Nat.mod_eq_of_lt hcard, Nat.zero_mod] at hval
    · intro heq
      simp [heq]
  rw [hzero, Finset.card_eq_zero, Finset.eq_empty_iff_forall_notMem]
  simp only [mem_support, not_and]

end Bitmap

end FamGraph
