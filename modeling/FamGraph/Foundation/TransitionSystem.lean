/-
Module: FamGraph.Foundation.TransitionSystem
Layer: Foundation
Purpose: Transition systems with a set of initial and a set of final states, and the two proof rules
  every concurrent model of the development is verified with. `Reachable.induct` is the invariant
  rule: what holds initially and is kept by every step holds in every reachable state.
  `terminates_of_measure` is the total-correctness rule: a measure that drops along every reachable
  step excludes infinite runs, and a step out of every reachable non-final state excludes deadlock.
Trusted boundary: none
Main exports: TransitionSystem, Reachable, Terminates, Reachable.induct, terminates_of_wellFounded,
  terminates_of_measure, Terminates.wellFounded, not_terminates_of_recurrent, withHistory, labelled,
  Reachable.of_foldlM
-/
import Mathlib.Logic.Relation
import Mathlib.Order.WellFounded
import Mathlib.Order.Basic
import Mathlib.Logic.Function.Iterate
import Mathlib.Data.Prod.Lex

/-- A nondeterministic machine: where a run may begin, what one step may do, where a run may end. -/
structure TransitionSystem (σ : Type*) where
  init : σ → Prop
  step : σ → σ → Prop
  final : σ → Prop

namespace TransitionSystem

variable {σ : Type*} {M : TransitionSystem σ}

/-- A state some finite run from an initial state ends in. -/
def Reachable (M : TransitionSystem σ) (s : σ) : Prop :=
  ∃ s₀, M.init s₀ ∧ Relation.ReflTransGen M.step s₀ s

/-- Total correctness of control: no run goes on forever, and a run only stops in a final state. -/
def Terminates (M : TransitionSystem σ) : Prop :=
  (∀ run : Nat → σ, M.init (run 0) → ¬ ∀ n, M.step (run n) (run (n + 1))) ∧
    ∀ s, M.Reachable s → ¬ M.final s → ∃ t, M.step s t

theorem Reachable.of_init {s : σ} (h : M.init s) : M.Reachable s :=
  ⟨s, h, .refl⟩

theorem Reachable.step {s t : σ} (h : M.Reachable s) (hst : M.step s t) : M.Reachable t := by
  obtain ⟨s₀, h₀, hrun⟩ := h
  exact ⟨s₀, h₀, hrun.tail hst⟩

/-- The invariant rule. -/
theorem Reachable.induct {I : σ → Prop} (hinit : ∀ s, M.init s → I s)
    (hstep : ∀ s t, M.Reachable s → I s → M.step s t → I t) {s : σ} (h : M.Reachable s) : I s := by
  obtain ⟨s₀, h₀, hrun⟩ := h
  induction hrun with
  | refl => exact hinit s₀ h₀
  | tail hrun hlast ih => exact hstep _ _ ⟨s₀, h₀, hrun⟩ ih hlast

/-- Every prefix of an infinite run is a run. -/
theorem reachable_of_run {run : Nat → σ} (h₀ : M.init (run 0))
    (hrun : ∀ n, M.step (run n) (run (n + 1))) (n : Nat) : M.Reachable (run n) := by
  induction n with
  | zero => exact .of_init h₀
  | succ n ih => exact ih.step (hrun n)

/-- The termination rule: what is measured of the reachable states drops at every step. -/
theorem terminates_of_wellFounded {α : Type*} {r : α → α → Prop} (hwf : WellFounded r)
    (measure : σ → α) (hdrop : ∀ s t, M.Reachable s → M.step s t → r (measure t) (measure s))
    (hprogress : ∀ s, M.Reachable s → ¬ M.final s → ∃ t, M.step s t) : M.Terminates := by
  refine ⟨fun run h₀ hrun => ?_, hprogress⟩
  have hfall : ∀ n, r (measure (run (n + 1))) (measure (run n)) :=
    fun n => hdrop _ _ (reachable_of_run h₀ hrun n) (hrun n)
  exact (wellFounded_iff_isEmpty_descending_chain.1 hwf).elim ⟨measure ∘ run, hfall⟩

/-- The termination rule for a measure in a well-founded order. -/
theorem terminates_of_measure {α : Type*} [Preorder α] [WellFoundedLT α] (measure : σ → α)
    (hdrop : ∀ s t, M.Reachable s → M.step s t → measure t < measure s)
    (hprogress : ∀ s, M.Reachable s → ¬ M.final s → ∃ t, M.step s t) : M.Terminates :=
  terminates_of_wellFounded wellFounded_lt measure hdrop hprogress

/-- A run from where another run leads, seen from where that one begins. -/
theorem exists_run_of_reflTransGen {s t : σ} (hpath : Relation.ReflTransGen M.step s t)
    (hruns : ∃ run : Nat → σ, run 0 = t ∧ ∀ n, M.step (run n) (run (n + 1))) :
    ∃ run : Nat → σ, run 0 = s ∧ ∀ n, M.step (run n) (run (n + 1)) := by
  induction hpath using Relation.ReflTransGen.head_induction_on with
  | refl => exact hruns
  | @head s u hfirst _ ih =>
      obtain ⟨run, hrun, hsteps⟩ := ih
      refine ⟨fun n => Nat.casesOn n s run, rfl, fun n => ?_⟩
      cases n with
      | zero =>
          obtain rfl : run 0 = u := hrun
          exact hfirst
      | succ n => exact hsteps n

/-- Where runs end, the steps out of reachable states are well-founded. -/
theorem Terminates.wellFounded (h : M.Terminates) :
    WellFounded fun t s => M.Reachable s ∧ M.step s t := by
  apply wellFounded_iff_isEmpty_descending_chain.2
  refine ⟨fun ⟨chain, hchain⟩ => ?_⟩
  obtain ⟨s₀, h₀, hpath⟩ := (hchain 0).1
  obtain ⟨run, hrun, hsteps⟩ := exists_run_of_reflTransGen hpath ⟨chain, rfl, fun n => (hchain n).2⟩
  exact h.1 run (hrun ▸ h₀) hsteps

/-- Runs that can always go on among the states of `I` do not end. -/
theorem not_terminates_of_recurrent {I : σ → Prop} {s₀ : σ} (h₀ : M.init s₀) (hI : I s₀)
    (hgo : ∀ s, I s → ∃ t, M.step s t ∧ I t) : ¬ M.Terminates := by
  choose! next hstep hnext using hgo
  have hrun : ∀ n, I (next^[n] s₀) := by
    intro n
    induction n with
    | zero => exact hI
    | succ n ih =>
        rw [Function.iterate_succ_apply']
        exact hnext _ ih
  intro hends
  refine hends.1 (fun n => next^[n] s₀) h₀ fun n => ?_
  rw [Function.iterate_succ_apply']
  exact hstep _ (hrun n)

/-- Runs that end, end in a final state, so one is reached wherever a run can begin. -/
theorem Terminates.exists_final (h : M.Terminates) {s₀ : σ} (h₀ : M.init s₀) :
    ∃ s, M.Reachable s ∧ M.final s := by
  by_contra hnone
  refine not_terminates_of_recurrent (I := M.Reachable) h₀ (.of_init h₀) ?_ h
  intro s hs
  obtain ⟨t, ht⟩ := h.2 s hs fun hfinal => hnone ⟨s, hs, hfinal⟩
  exact ⟨t, ht, hs.step ht⟩

/-! ### History variables -/

section History

variable {η : Type*}

/-- The machine with a variable that writes something down about the steps taken and decides
    nothing. -/
def withHistory (M : TransitionSystem σ) (empty : η) (note : σ → σ → η → η) :
    TransitionSystem (σ × η) where
  init p := M.init p.1 ∧ p.2 = empty
  step p q := M.step p.1 q.1 ∧ q.2 = note p.1 q.1 p.2
  final p := M.final p.1

variable {empty : η} {note : σ → σ → η → η}

theorem Reachable.of_history {p : σ × η} (h : (M.withHistory empty note).Reachable p) :
    M.Reachable p.1 := by
  apply Reachable.induct (I := fun p : σ × η => M.Reachable p.1) _ _ h
  · intro p hinit
    exact .of_init hinit.1
  · intro p q _ hp hstep
    exact hp.step hstep.1

/-- Every run writes a history. -/
theorem Reachable.exists_history {s : σ} (h : M.Reachable s) :
    ∃ past, (M.withHistory empty note).Reachable (s, past) := by
  apply Reachable.induct (I := fun s => ∃ past, (M.withHistory empty note).Reachable (s, past)) _ _
    h
  · intro s hinit
    exact ⟨empty, .of_init ⟨hinit, rfl⟩⟩
  · rintro s t - ⟨past, hs⟩ hstep
    exact ⟨note s t past, hs.step ⟨hstep, rfl⟩⟩

end History

/-! ### Named steps -/

section Labelled

variable {α : Type*} {init final : σ → Prop} {step : σ → α → Option σ}

/-- The machine whose steps have names, with the names of the steps taken so far. -/
def labelled (init : σ → Prop) (step : σ → α → Option σ) (final : σ → Prop) :
    TransitionSystem (σ × List α) where
  init p := init p.1 ∧ p.2 = []
  step p q := ∃ a, step p.1 a = some q.1 ∧ q.2 = p.2 ++ [a]
  final p := final p.1

/-- Performing the named steps one after the other. -/
theorem Reachable.of_foldlM {s t : σ} {past : List α} (actions : List α)
    (h : (labelled init step final).Reachable (s, past)) (hrun : actions.foldlM step s = some t) :
    (labelled init step final).Reachable (t, past ++ actions) := by
  induction actions generalizing s past with
  | nil =>
      obtain rfl : s = t := Option.some.inj hrun
      rwa [List.append_nil]
  | cons a actions ih =>
      rw [List.foldlM_cons] at hrun
      obtain ⟨u, hstep, hrest⟩ := Option.bind_eq_some_iff.1 hrun
      have hu : (labelled init step final).Reachable (u, past ++ [a]) := h.step ⟨a, hstep, rfl⟩
      have hend := ih hu hrest
      rwa [List.append_assoc] at hend

end Labelled

end TransitionSystem
