/-
Module: FamGraph.Foundation.Lockstep
Layer: Foundation
Purpose: Two programs over different states that go on in lockstep: from related states both return
  the same value or throw the same exception, in related states again. One rule for each way a
  program is put together; the rule for the event loop lifts an agreement of two handlers to whole
  runs.
Trusted boundary: none
Main exports: Lockstep.Alike, Lockstep, Lockstep.bind, Lockstep.run
-/
import FamGraph.Foundation.EventLoop

section

variable {E σ τ α β : Type} {R : σ → τ → Prop}

/-- Two outcomes with the same value, or the same exception, in related states. -/
inductive Lockstep.Alike (R : σ → τ → Prop) :
    EStateM.Result E σ α → EStateM.Result E τ α → Prop where
  | ok (a : α) {s : σ} {t : τ} (h : R s t) : Alike R (.ok a s) (.ok a t)
  | error (x : E) {s : σ} {t : τ} (h : R s t) : Alike R (.error x s) (.error x t)

/-- From related states, `m` and `n` have outcomes that are alike. -/
def Lockstep (R : σ → τ → Prop) (m : EStateM E σ α) (n : EStateM E τ α) : Prop :=
  ∀ s t, R s t → Lockstep.Alike R (m s) (n t)

namespace Lockstep

/-- Outcomes that are alike leave related states behind. -/
theorem Alike.final {r : EStateM.Result E σ α} {r' : EStateM.Result E τ α} (h : Alike R r r') :
    R (EventLoop.final r) (EventLoop.final r') := by
  cases h with
  | ok _ hst => exact hst
  | error _ hst => exact hst

theorem Alike.of_ok {a : α} {s : σ} {r : EStateM.Result E τ α} (h : Alike R (.ok a s) r) :
    ∃ t, r = .ok a t ∧ R s t := by
  cases h with
  | ok _ hst => exact ⟨_, rfl, hst⟩

theorem pure (a : α) : Lockstep R (Pure.pure a : EStateM E σ α) (Pure.pure a : EStateM E τ α) :=
  fun _ _ h => .ok a h

theorem throw (x : E) :
    Lockstep R (MonadExcept.throw x : EStateM E σ α) (MonadExcept.throw x : EStateM E τ α) :=
  fun _ _ h => .error x h

theorem modify {f : σ → σ} {g : τ → τ} (h : ∀ s t, R s t → R (f s) (g t)) :
    Lockstep R (modifyGet fun s => ((), f s) : EStateM E σ Unit)
      (modifyGet fun t => ((), g t) : EStateM E τ Unit) :=
  fun s t hst => .ok () (h s t hst)

theorem bind {m : EStateM E σ α} {n : EStateM E τ α} {f : α → EStateM E σ β} {g : α → EStateM E τ β}
    (hm : Lockstep R m n) (hf : ∀ a, Lockstep R (f a) (g a)) : Lockstep R (m >>= f) (n >>= g) := by
  intro s t hst
  have hfirst : Alike R (m s) (n t) := hm s t hst
  cases hms : m s with
  | ok a s' =>
      cases hnt : n t with
      | ok b t' =>
          rw [hms, hnt] at hfirst
          cases hfirst with
          | ok _ hst' =>
              rw [EventLoop.bind_ok hms, EventLoop.bind_ok hnt]
              exact hf a s' t' hst'
      | error y t' =>
          rw [hms, hnt] at hfirst
          exact nomatch hfirst
  | error x s' =>
      cases hnt : n t with
      | ok b t' =>
          rw [hms, hnt] at hfirst
          exact nomatch hfirst
      | error y t' =>
          rw [hms, hnt] at hfirst
          cases hfirst with
          | error _ hst' =>
              rw [EventLoop.bind_error hms, EventLoop.bind_error hnt]
              exact .error x hst'

/-- What is read of the two states may differ, as long as what follows goes on alike. -/
theorem get_bind {f : σ → EStateM E σ α} {g : τ → EStateM E τ α}
    (h : ∀ s t, R s t → Lockstep R (f s) (g t)) : Lockstep R (get >>= f) (get >>= g) :=
  fun s t hst => h s t hst s t hst

theorem ite {c d : Prop} [Decidable c] [Decidable d] {m m' : EStateM E σ α} {n n' : EStateM E τ α}
    (hcd : c ↔ d) (hm : Lockstep R m n) (hm' : Lockstep R m' n') :
    Lockstep R (if c then m else m') (if d then n else n') := by
  by_cases hc : c
  · rw [if_pos hc, if_pos (hcd.1 hc)]
    exact hm
  · rw [if_neg hc, if_neg fun hd => hc (hcd.2 hd)]
    exact hm'

/-- Two loops over the same events, whose handlers agree on each. -/
theorem run {ε : Type} {handle : ε → EStateM E σ Bool} {handle' : ε → EStateM E τ Bool}
    (h : ∀ e, Lockstep R (handle e) (handle' e)) (events : List ε) :
    Lockstep R (EventLoop.run handle events) (EventLoop.run handle' events) := by
  induction events with
  | nil => exact pure true
  | cons e events ih =>
      apply (h e).bind
      intro go
      cases go with
      | true => exact ih
      | false => exact pure false

end Lockstep

end
