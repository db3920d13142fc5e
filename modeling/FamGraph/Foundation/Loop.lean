/-
Module: FamGraph.Foundation.Loop
Layer: Foundation
Purpose: A `while` loop over an explicit state, run with fuel so that it can be evaluated. The body
  may fail to return. More fuel never changes a result, so "some fuel gives a result" is
  termination; the total rule is the usual one with an invariant and a variant.
Trusted boundary: none
Main exports: Loop.run, run_mono, run_body_mono, run_unique, run_invariant, run_total,
  Loop.recorded, run_recorded, Loop.iter, iter_invariant, iter_simulation, iter_done
-/
import Mathlib.Order.Basic

namespace Loop

variable {σ : Type*} {cond : σ → Bool} {body : σ → Option σ}

/-- `while (cond) body`, at most `fuel` times. -/
def run (cond : σ → Bool) (body : σ → Option σ) : Nat → σ → Option σ
  | 0, s => if cond s then none else some s
  | fuel + 1, s => if cond s then (body s).bind (run cond body fuel) else some s

/-- A loop whose condition is false does nothing. -/
theorem run_of_done {s : σ} (h : cond s = false) (fuel : Nat) : run cond body fuel s = some s := by
  cases fuel <;> simp [run, h]

theorem run_succ_of_cond {s : σ} (h : cond s = true) (fuel : Nat) :
    run cond body (fuel + 1) s = (body s).bind (run cond body fuel) := by
  simp [run, h]

/-- One turn and then the rest. -/
theorem run_succ {s s' t : σ} {fuel : Nat} (h : cond s = true) (hbody : body s = some s')
    (hrun : run cond body fuel s' = some t) : run cond body (fuel + 1) s = some t := by
  rw [run_succ_of_cond h, hbody, Option.bind_some, hrun]

/-- More fuel gives the same result. -/
theorem run_mono {fuel fuel' : Nat} {s t : σ} (hrun : run cond body fuel s = some t)
    (hle : fuel ≤ fuel') : run cond body fuel' s = some t := by
  induction fuel generalizing s fuel' with
  | zero =>
      cases hs : cond s with
      | true => simp [run, hs] at hrun
      | false =>
          rw [run_of_done hs] at hrun ⊢
          exact hrun
  | succ fuel ih =>
      cases hs : cond s with
      | true =>
          obtain ⟨more, rfl⟩ : ∃ more, fuel' = more + 1 := ⟨fuel' - 1, by omega⟩
          rw [run_succ_of_cond hs] at hrun ⊢
          obtain ⟨s', hbody, hrest⟩ := Option.bind_eq_some_iff.1 hrun
          rw [hbody, Option.bind_some]
          exact ih hrest (by omega)
      | false =>
          rw [run_of_done hs] at hrun ⊢
          exact hrun

/-- The result does not depend on the fuel. -/
theorem run_unique {fuel fuel' : Nat} {s t t' : σ} (hrun : run cond body fuel s = some t)
    (hrun' : run cond body fuel' s = some t') : t = t' := by
  have hleft := run_mono hrun (Nat.le_max_left fuel fuel')
  have hright := run_mono hrun' (Nat.le_max_right fuel fuel')
  rw [hleft] at hright
  exact Option.some.inj hright

/-- A body that returns more often gives the same result. -/
theorem run_body_mono {body' : σ → Option σ} (hbody : ∀ s s', body s = some s' → body' s = some s')
    {fuel : Nat} {s t : σ} (hrun : run cond body fuel s = some t) :
    run cond body' fuel s = some t := by
  induction fuel generalizing s with
  | zero => exact hrun
  | succ fuel ih =>
      cases hs : cond s with
      | true =>
          rw [run_succ_of_cond hs] at hrun
          obtain ⟨s', hturn, hrest⟩ := Option.bind_eq_some_iff.1 hrun
          exact run_succ hs (hbody s s' hturn) (ih hrest)
      | false =>
          rw [run_of_done hs] at hrun ⊢
          exact hrun

/-- Partial correctness: what every turn keeps holds at the end. -/
theorem run_invariant (I : σ → Prop) (hkeep : ∀ s s', I s → cond s = true → body s = some s' → I s')
    {fuel : Nat} {s t : σ} (hs : I s) (hrun : run cond body fuel s = some t) :
    I t ∧ cond t = false := by
  induction fuel generalizing s with
  | zero =>
      cases hcond : cond s with
      | true => simp [run, hcond] at hrun
      | false =>
          rw [run_of_done hcond, Option.some.injEq] at hrun
          exact hrun ▸ ⟨hs, hcond⟩
  | succ fuel ih =>
      cases hcond : cond s with
      | true =>
          rw [run_succ_of_cond hcond] at hrun
          obtain ⟨s', hbody, hrest⟩ := Option.bind_eq_some_iff.1 hrun
          exact ih (hkeep s s' hs hcond hbody) hrest
      | false =>
          rw [run_of_done hcond, Option.some.injEq] at hrun
          exact hrun ▸ ⟨hs, hcond⟩

/-- Total correctness: with a variant that every turn lowers, the loop ends, in a state that
    satisfies the invariant. -/
theorem run_total (I : σ → Prop) (variant : σ → Nat)
    (hturn : ∀ s, I s → cond s = true → ∃ s', body s = some s' ∧ I s' ∧ variant s' < variant s)
    {fuel : Nat} {s : σ} (hs : I s) (hfuel : variant s ≤ fuel) :
    ∃ t, run cond body fuel s = some t ∧ I t ∧ cond t = false := by
  induction fuel generalizing s with
  | zero =>
      cases hcond : cond s with
      | true =>
          obtain ⟨s', -, -, hlt⟩ := hturn s hs hcond
          omega
      | false => exact ⟨s, run_of_done hcond 0, hs, hcond⟩
  | succ fuel ih =>
      cases hcond : cond s with
      | true =>
          obtain ⟨s', hbody, hs', hlt⟩ := hturn s hs hcond
          obtain ⟨t, hrun, ht⟩ := ih hs' (by omega)
          exact ⟨t, run_succ hcond hbody hrun, ht⟩
      | false => exact ⟨s, run_of_done hcond _, hs, hcond⟩

/-! ### Loops with a record -/

/-- A turn that also writes down what it was made from. -/
def recorded {β : Type*} (view : σ → β) (body : σ → Option σ) (s : σ × List β) :
    Option (σ × List β) :=
  (body s.1).map fun t => (t, s.2 ++ [view s.1])

/-- A loop does the same with a record as without. -/
theorem run_recorded {β : Type*} (view : σ → β) (fuel : Nat) (s : σ × List β) :
    (run (fun s : σ × List β => cond s.1) (recorded view body) fuel s).map Prod.fst =
      run cond body fuel s.1 := by
  induction fuel generalizing s with
  | zero =>
      cases hcond : cond s.1 with
      | true => simp [run, hcond]
      | false => simp [run, hcond]
  | succ fuel ih =>
      rw [run, run]
      cases cond s.1 with
      | true =>
          simp only [if_true, recorded]
          cases body s.1 with
          | none => rfl
          | some t => exact ih (t, s.2 ++ [view s.1])
      | false => rfl

/-! ### Loops whose body always returns -/

/-- `while (cond) body`, at most `fuel` times, for a body that cannot fail. -/
def iter (cond : σ → Bool) (body : σ → σ) : Nat → σ → σ
  | 0, s => s
  | fuel + 1, s => if cond s then iter cond body fuel (body s) else s

theorem iter_of_done {f : σ → σ} {s : σ} (h : cond s = false) (fuel : Nat) :
    iter cond f fuel s = s := by
  cases fuel <;> simp [iter, h]

theorem iter_succ {f : σ → σ} {s : σ} (h : cond s = true) (fuel : Nat) :
    iter cond f (fuel + 1) s = iter cond f fuel (f s) := by
  simp [iter, h]

/-- Some turns, and then more. -/
theorem iter_add {f : σ → σ} (m n : Nat) (s : σ) :
    iter cond f (m + n) s = iter cond f n (iter cond f m s) := by
  induction m generalizing s with
  | zero => rw [Nat.zero_add, iter]
  | succ m ih =>
      rw [Nat.succ_add]
      cases hcond : cond s with
      | true => rw [iter_succ hcond, iter_succ hcond, ih]
      | false => rw [iter_of_done hcond, iter_of_done hcond, iter_of_done hcond]

/-- What every turn keeps holds at the end. -/
theorem iter_invariant {f : σ → σ} (I : σ → Prop) (hkeep : ∀ s, I s → cond s = true → I (f s))
    (fuel : Nat) {s : σ} (hs : I s) : I (iter cond f fuel s) := by
  induction fuel generalizing s with
  | zero => exact hs
  | succ fuel ih =>
      cases hcond : cond s with
      | true =>
          rw [iter_succ hcond]
          exact ih (hkeep s hs hcond)
      | false =>
          rw [iter_of_done hcond]
          exact hs

/-- Two loops that stay related turn by turn end related. -/
theorem iter_simulation {τ : Type*} {cond' : τ → Bool} {f : σ → σ} {g : τ → τ} (R : σ → τ → Prop)
    (hcond : ∀ s t, R s t → cond s = cond' t) (hturn : ∀ s t, R s t → cond s = true → R (f s) (g t))
    (fuel : Nat) {s : σ} {t : τ} (h : R s t) :
    R (iter cond f fuel s) (iter cond' g fuel t) := by
  induction fuel generalizing s t with
  | zero => exact h
  | succ fuel ih =>
      cases hs : cond s with
      | true =>
          rw [iter_succ hs, iter_succ ((hcond s t h).symm.trans hs)]
          exact ih (hturn s t h hs)
      | false =>
          rw [iter_of_done hs, iter_of_done ((hcond s t h).symm.trans hs)]
          exact h

/-- With a variant that every turn lowers, the loop has ended when the fuel runs out. -/
theorem iter_done {f : σ → σ} (variant : σ → Nat)
    (hturn : ∀ s, cond s = true → variant (f s) < variant s) {fuel : Nat} {s : σ}
    (hfuel : variant s ≤ fuel) : cond (iter cond f fuel s) = false := by
  induction fuel generalizing s with
  | zero =>
      cases hcond : cond s with
      | true =>
          have hlt := hturn s hcond
          omega
      | false => exact hcond
  | succ fuel ih =>
      cases hcond : cond s with
      | true =>
          have hlt := hturn s hcond
          rw [iter_succ hcond]
          exact ih (by omega)
      | false =>
          rw [iter_of_done hcond]
          exact hcond

end Loop
