/-
Module: FamGraph.Foundation.EventLoop
Layer: Foundation
Purpose: A loop that takes events from outside one at a time, whose handler changes a state and may
  leave the loop or throw. `run_invariant` carries a fact about the events handled so far along a
  whole run that goes on; `run_final` carries a relation between the states before and after along
  any run, whichever way it ends.
Trusted boundary: none
Main exports: EventLoop.run, EventLoop.final, run_append_ok, run_append_error, run_invariant,
  run_final
-/
import Mathlib.Data.List.Infix

namespace EventLoop

variable {ε σ α : Type} {E : Type}

/-- Handle the events in order for as long as the handler returns `true` and throws nothing. -/
def run (handle : ε → EStateM E σ Bool) : List ε → EStateM E σ Bool
  | [] => pure true
  | e :: es => do
      if ← handle e then run handle es else pure false

/-- The state a computation leaves behind, whether it returned or threw. -/
def final : EStateM.Result E σ α → σ
  | .ok _ s => s
  | .error _ s => s

@[simp] theorem final_ok (a : α) (s : σ) : final (.ok a s : EStateM.Result E σ α) = s := rfl

@[simp] theorem final_error (x : E) (s : σ) : final (.error x s : EStateM.Result E σ α) = s := rfl

section Bind

variable {β : Type} {m : EStateM E σ α} {f : α → EStateM E σ β} {s t : σ}

/-- A computation that returns goes on with what follows it. -/
theorem bind_ok {a : α} (h : m s = .ok a t) : (m >>= f) s = f a t := by
  simp only [bind, EStateM.bind, h]

/-- A computation that throws ends the whole. -/
theorem bind_error {x : E} (h : m s = .error x t) : (m >>= f) s = .error x t := by
  simp only [bind, EStateM.bind, h]

end Bind

variable {handle : ε → EStateM E σ Bool} {e : ε} {s t : σ}

@[simp] theorem run_nil (s : σ) : run handle [] s = .ok true s := rfl

theorem run_cons_ok (es : List ε) (h : handle e s = .ok true t) :
    run handle (e :: es) s = run handle es t :=
  bind_ok h

theorem run_cons_break (es : List ε) (h : handle e s = .ok false t) :
    run handle (e :: es) s = .ok false t :=
  bind_ok h

theorem run_cons_error {x : E} (es : List ε) (h : handle e s = .error x t) :
    run handle (e :: es) s = .error x t :=
  bind_error h

/-- A run that has gone through its first events goes on with the others. -/
theorem run_append_ok {as : List ε} (bs : List ε) (h : run handle as s = .ok true t) :
    run handle (as ++ bs) s = run handle bs t := by
  induction as generalizing s with
  | nil =>
      rw [run_nil] at h
      cases h
      rfl
  | cons a as ih =>
      cases ha : handle a s with
      | error x u =>
          rw [run_cons_error _ ha] at h
          cases h
      | ok go u =>
          cases go with
          | false =>
              rw [run_cons_break _ ha] at h
              cases h
          | true =>
              rw [run_cons_ok _ ha] at h
              rw [List.cons_append, run_cons_ok _ ha]
              exact ih h

/-- What every event keeps, given the events handled before it, holds after all of them. -/
theorem run_invariant {I : List ε → σ → Prop} (es : List ε) (hinit : I [] s)
    (hstep : ∀ past e t, past ++ [e] <+: es → I past t →
      ∃ u, handle e t = .ok true u ∧ I (past ++ [e]) u) :
    ∃ t, run handle es s = .ok true t ∧ I es t := by
  induction es using List.reverseRecOn with
  | nil => exact ⟨s, rfl, hinit⟩
  | append_singleton past e ih =>
      have hpast : ∃ t, run handle past s = .ok true t ∧ I past t := by
        apply ih
        intro before e' t hearlier hI
        exact hstep before e' t (hearlier.trans (List.prefix_append past [e])) hI
      obtain ⟨t, hrun, hI⟩ := hpast
      obtain ⟨u, hhandle, hnext⟩ := hstep past e t (List.prefix_refl _) hI
      refine ⟨u, ?_, hnext⟩
      rw [run_append_ok [e] hrun, run_cons_ok [] hhandle, run_nil]

/-- A reflexive and transitive relation that every event respects relates the ends of every run. -/
theorem run_final {R : σ → σ → Prop} (hrefl : ∀ s, R s s)
    (htrans : ∀ s t u, R s t → R t u → R s u) (hstep : ∀ e s, R s (final (handle e s)))
    (es : List ε) (s : σ) : R s (final (run handle es s)) := by
  induction es generalizing s with
  | nil => exact hrefl s
  | cons e es ih =>
      have hfirst : R s (final (handle e s)) := hstep e s
      cases h : handle e s with
      | error x t =>
          rw [h] at hfirst
          rw [run_cons_error es h]
          exact hfirst
      | ok go t =>
          rw [h] at hfirst
          cases go with
          | false =>
              rw [run_cons_break es h]
              exact hfirst
          | true =>
              rw [run_cons_ok es h]
              exact htrans s t _ hfirst (ih t)

/-- The same relation between what the first event leaves behind and the end of the run. -/
theorem run_final_cons {R : σ → σ → Prop} (hrefl : ∀ s, R s s)
    (htrans : ∀ s t u, R s t → R t u → R s u) (hstep : ∀ e s, R s (final (handle e s)))
    (e : ε) (es : List ε) (s : σ) : R (final (handle e s)) (final (run handle (e :: es) s)) := by
  cases h : handle e s with
  | error x t =>
      rw [run_cons_error es h]
      exact hrefl t
  | ok go t =>
      cases go with
      | false =>
          rw [run_cons_break es h]
          exact hrefl t
      | true =>
          rw [run_cons_ok es h]
          exact run_final hrefl htrans hstep es t

end EventLoop
