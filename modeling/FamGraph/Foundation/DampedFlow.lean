/-
Module: FamGraph.Foundation.DampedFlow
Layer: Foundation
Purpose: Linear systems `x = base + damping * (shares of x)`, in which a vertex hands at most all it
  has to its successors and a part of it gets lost on the way. Such a system has one solution, the
  solution is not negative, and an iterate that leaves a residual stays below it and loses a factor
  `damping` of its distance at each turn.
Trusted boundary: none
Main exports: DampedFlow, Solves, exists_solves, Solves.unique, Solves.nonneg, Below, Below.advance
-/
import Mathlib.Algebra.Order.BigOperators.Ring.Finset
import Mathlib.Algebra.Order.Field.Basic
import Mathlib.LinearAlgebra.FiniteDimensional.Basic
import Mathlib.LinearAlgebra.Dimension.Constructions
import Mathlib.Tactic.Linarith
import Mathlib.Tactic.Ring

/-- The shares a vertex hands to the others, and the part that arrives. -/
structure DampedFlow (K V : Type*) [Field K] [LinearOrder K] [IsStrictOrderedRing K]
    [Fintype V] where
  share : V → V → K
  damping : K
  share_nonneg : ∀ u v, 0 ≤ share u v
  share_sum_le : ∀ u, ∑ v, share u v ≤ 1
  damping_nonneg : 0 ≤ damping
  damping_lt_one : damping < 1

namespace DampedFlow

variable {K V : Type*} [Field K] [LinearOrder K] [IsStrictOrderedRing K] [Fintype V]
  (F : DampedFlow K V)

/-- What arrives at `v` when every vertex hands out its shares of `x`. -/
def inflow (x : V → K) (v : V) : K := F.damping * ∑ u, F.share u v * x u

/-- The vertices that hand out anything. -/
def senders : Finset V := Finset.univ.filter fun u => ∃ v, F.share u v ≠ 0

/-- `x` is what the vertices start with and what arrives. -/
def Solves (base x : V → K) : Prop := ∀ v, x v = base v + F.inflow x v

variable {F} {base x y r π : V → K} {bound : K}

/-! ### The inflow -/

theorem exists_share_ne_zero {u : V} (h : u ∈ F.senders) : ∃ v, F.share u v ≠ 0 :=
  (Finset.mem_filter.1 h).2

theorem share_eq_zero {u : V} (h : u ∉ F.senders) (v : V) : F.share u v = 0 := by
  by_contra hne
  exact h (Finset.mem_filter.2 ⟨Finset.mem_univ u, v, hne⟩)

/-- Only what the senders have matters. -/
theorem inflow_mono (h : ∀ u ∈ F.senders, x u ≤ y u) (v : V) : F.inflow x v ≤ F.inflow y v := by
  apply mul_le_mul_of_nonneg_left _ F.damping_nonneg
  apply Finset.sum_le_sum
  intro u _
  by_cases hu : u ∈ F.senders
  · exact mul_le_mul_of_nonneg_left (h u hu) (F.share_nonneg u v)
  · rw [share_eq_zero hu, zero_mul, zero_mul]

theorem inflow_zero (v : V) : F.inflow 0 v = 0 := by simp [inflow]

theorem inflow_sub (x y : V → K) (v : V) : F.inflow (x - y) v = F.inflow x v - F.inflow y v := by
  simp only [inflow, Pi.sub_apply, mul_sub, Finset.sum_sub_distrib]

theorem inflow_add (x y : V → K) (v : V) : F.inflow (x + y) v = F.inflow x v + F.inflow y v := by
  simp only [inflow, Pi.add_apply, mul_add, Finset.sum_add_distrib]

theorem inflow_smul (a : K) (x : V → K) (v : V) : F.inflow (a • x) v = a * F.inflow x v := by
  simp only [inflow, Pi.smul_apply, smul_eq_mul, Finset.mul_sum]
  apply Finset.sum_congr rfl
  intro u _
  ring

/-- Altogether no more arrives than the damped sum of what the senders have. -/
theorem sum_inflow_le (h : ∀ u ∈ F.senders, 0 ≤ x u) :
    ∑ v, F.inflow x v ≤ F.damping * ∑ u ∈ F.senders, x u := by
  have hswap : ∑ v, F.inflow x v = F.damping * ∑ u, (∑ v, F.share u v) * x u := by
    simp only [inflow, ← Finset.mul_sum, Finset.sum_mul]
    rw [Finset.sum_comm]
  rw [hswap]
  apply mul_le_mul_of_nonneg_left _ F.damping_nonneg
  rw [← Finset.sum_subset (Finset.subset_univ F.senders) fun u _ hu => by simp [share_eq_zero hu]]
  apply Finset.sum_le_sum
  intro u hu
  have hle := mul_le_mul_of_nonneg_right (F.share_sum_le u) (h u hu)
  rwa [one_mul] at hle

theorem sum_inflow_le_sum (h : ∀ u, 0 ≤ x u) : ∑ v, F.inflow x v ≤ F.damping * ∑ u, x u :=
  le_trans (sum_inflow_le fun u _ => h u) (mul_le_mul_of_nonneg_left
    (Finset.sum_le_univ_sum_of_nonneg h) F.damping_nonneg)

/-- Whatever is fed by its own inflow alone dies out. -/
theorem eq_zero_of_le_inflow (hnonneg : ∀ v, 0 ≤ x v) (hle : ∀ v, x v ≤ F.inflow x v) (v : V) :
    x v = 0 := by
  have hsum : ∑ v, x v ≤ F.damping * ∑ v, x v :=
    le_trans (Finset.sum_le_sum fun v _ => hle v) (sum_inflow_le_sum hnonneg)
  have hpos : 0 ≤ ∑ v, x v := Finset.sum_nonneg fun v _ => hnonneg v
  have hzero : ∑ v, x v = 0 := by nlinarith [F.damping_lt_one]
  exact (Finset.sum_eq_zero_iff_of_nonneg fun v _ => hnonneg v).1 hzero v (Finset.mem_univ v)

/-! ### The solution -/

theorem Solves.unique (hx : F.Solves base x) (hy : F.Solves base y) : x = y := by
  have hzero := eq_zero_of_le_inflow (F := F) (x := fun v => |x v - y v|) (fun v => abs_nonneg _) ?_
  · funext v
    exact sub_eq_zero.1 (abs_eq_zero.1 (hzero v))
  · intro v
    have hdiff : x v - y v = F.inflow (x - y) v := by
      rw [inflow_sub, hx v, hy v]
      ring
    rw [hdiff, inflow, abs_mul, abs_of_nonneg F.damping_nonneg]
    apply mul_le_mul_of_nonneg_left _ F.damping_nonneg
    apply le_trans (Finset.abs_sum_le_sum_abs _ _)
    apply Finset.sum_le_sum
    intro u _
    rw [abs_mul, abs_of_nonneg (F.share_nonneg u v)]
    rfl

theorem exists_solves (F : DampedFlow K V) (base : V → K) : ∃ x, F.Solves base x := by
  let f : (V → K) →ₗ[K] (V → K) :=
    { toFun := fun x v => x v - F.inflow x v
      map_add' := by
        intro x y
        funext v
        rw [Pi.add_apply, Pi.add_apply, inflow_add]
        ring
      map_smul' := by
        intro a x
        funext v
        rw [Pi.smul_apply, Pi.smul_apply, inflow_smul, smul_eq_mul, smul_eq_mul, RingHom.id_apply]
        ring }
  have hinj : Function.Injective f := by
    intro x y heq
    have hx : F.Solves (f x) x := fun v => (sub_add_cancel (x v) (F.inflow x v)).symm
    have hy : F.Solves (f x) y := by
      rw [heq]
      exact fun v => (sub_add_cancel (y v) (F.inflow y v)).symm
    exact hx.unique hy
  obtain ⟨x, hx⟩ := LinearMap.injective_iff_surjective.1 hinj base
  refine ⟨x, fun v => ?_⟩
  rw [← hx]
  exact (sub_add_cancel (x v) (F.inflow x v)).symm

theorem Solves.nonneg (h : F.Solves base π) (hbase : ∀ v, 0 ≤ base v) (v : V) : 0 ≤ π v := by
  -- the part below zero is fed by itself alone
  have hzero := eq_zero_of_le_inflow (F := F) (x := fun v => max (-π v) 0)
    (fun v => le_max_right _ _) ?_ v
  · exact neg_nonpos.1 (max_eq_right_iff.1 hzero)
  · intro v
    have hneg : F.inflow (-π) v ≤ F.inflow (fun v => max (-π v) 0) v :=
      inflow_mono (fun u _ => le_max_left _ _) v
    have hpos : F.inflow 0 v ≤ F.inflow (fun v => max (-π v) 0) v :=
      inflow_mono (fun u _ => le_max_right _ _) v
    have hflip : F.inflow (-π) v = -F.inflow π v := by
      rw [← zero_sub, inflow_sub, inflow_zero, zero_sub]
    have hv := h v
    rw [inflow_zero] at hpos
    apply max_le
    · linarith [hbase v]
    · exact hpos

/-- No more than the sum of the bases, each handed on for ever. -/
theorem Solves.sum_le (h : F.Solves base π) (hbase : ∀ v, 0 ≤ base v) :
    (1 - F.damping) * ∑ v, π v ≤ ∑ v, base v := by
  have hsum : ∑ v, π v = ∑ v, base v + ∑ v, F.inflow π v := by
    rw [← Finset.sum_add_distrib]
    exact Finset.sum_congr rfl fun v _ => h v
  have hle := sum_inflow_le_sum (F := F) (h.nonneg hbase)
  linarith

/-! ### Approximation from below -/

variable (F) in
/-- What the senders hand on is at most what they should, and falls short by at most `bound`. -/
structure Below (π y : V → K) (bound : K) : Prop where
  le : ∀ u ∈ F.senders, y u ≤ π u
  gap : ∑ u ∈ F.senders, (π u - y u) ≤ bound

theorem Below.congr (h : F.Below π y bound) (heq : ∀ u ∈ F.senders, x u = y u) :
    F.Below π x bound where
  le u hu := (heq u hu).symm ▸ h.le u hu
  gap := by
    rw [Finset.sum_congr rfl fun u hu => by rw [heq u hu]]
    exact h.gap

theorem Below.mono {bound' : K} (h : F.Below π y bound) (hle : bound ≤ bound') :
    F.Below π y bound' :=
  ⟨h.le, h.gap.trans hle⟩

/-- Nothing handed on falls short by all there is. -/
theorem Solves.below_zero (h : F.Solves base π) (hbase : ∀ v, 0 ≤ base v)
    (hsum : ∑ v, π v ≤ bound) :
    F.Below π 0 bound where
  le u _ := h.nonneg hbase u
  gap := by
    simp only [Pi.zero_apply, sub_zero]
    exact (Finset.sum_le_univ_sum_of_nonneg (h.nonneg hbase)).trans hsum

/-- An iterate that is what arrives, less a residual, is at most the solution. -/
theorem Below.le_of_residual (h : F.Below π y bound) (hπ : F.Solves base π)
    (hx : ∀ v, x v + r v = base v + F.inflow y v) (hr : ∀ v, 0 ≤ r v) (v : V) : x v ≤ π v := by
  have hmono := inflow_mono h.le v
  linarith [hπ v, hx v, hr v]

/-- Its distance from the solution is the damped distance of what was handed on, and the
    residuals. -/
theorem Below.sum_le_of_residual (h : F.Below π y bound) (hπ : F.Solves base π)
    (hx : ∀ v, x v + r v = base v + F.inflow y v) :
    ∑ v, (π v - x v) ≤ F.damping * bound + ∑ v, r v := by
  have hgap : ∀ v, π v - x v = F.inflow (π - y) v + r v := by
    intro v
    rw [inflow_sub]
    linarith [hπ v, hx v]
  have hsum : ∑ v, F.inflow (π - y) v ≤ F.damping * ∑ u ∈ F.senders, (π u - y u) :=
    sum_inflow_le fun u hu => sub_nonneg.2 (h.le u hu)
  rw [Finset.sum_congr rfl fun v _ => hgap v, Finset.sum_add_distrib]
  have hbound := mul_le_mul_of_nonneg_left h.gap F.damping_nonneg
  linarith

/-- So it can be handed on in its turn. -/
theorem Below.advance (h : F.Below π y bound) (hπ : F.Solves base π)
    (hx : ∀ v, x v + r v = base v + F.inflow y v) (hr : ∀ v, 0 ≤ r v) :
    F.Below π x (F.damping * bound + ∑ v, r v) where
  le u _ := h.le_of_residual hπ hx hr u
  gap := le_trans
    (Finset.sum_le_univ_sum_of_nonneg fun u => sub_nonneg.2 (h.le_of_residual hπ hx hr u))
    (h.sum_le_of_residual hπ hx)

/-- An iterate that hands on itself is as far off as its residuals, handed on for ever. -/
theorem sum_le_of_fixed (hπ : F.Solves base π) (hx : ∀ v, x v + r v = base v + F.inflow x v)
    (hle : ∀ v, x v ≤ π v) : (1 - F.damping) * ∑ v, (π v - x v) ≤ ∑ v, r v := by
  have hbelow : F.Below π x (∑ v, (π v - x v)) :=
    ⟨fun u _ => hle u, Finset.sum_le_univ_sum_of_nonneg fun u => sub_nonneg.2 (hle u)⟩
  have hsum := hbelow.sum_le_of_residual hπ hx
  linarith

end DampedFlow
