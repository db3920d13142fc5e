/-
Module: FamGraph.Foundation.TaskPool
Layer: Foundation
Purpose: Interleaving semantics of a pool of running tasks over one shared state, with the proof
  rules the parallel sections of the development use. A task is a local state; one atomic action
  changes the shared state and the acting task only. A `Discipline` packages an Owicki-Gries style
  argument: an invariant of the shared state, an assertion for each task, a relation that keeps
  tasks apart, and a family of obligations each of which is either still owed by some task or
  already paid in the shared state. `Discipline.Sound` lists the four checks on single actions,
  `Sound.step` is the resulting rule for the whole pool.
Trusted boundary: none
Main exports: TaskPool.Step, noting, Discipline, Discipline.Holds, Discipline.Sound.step,
  Step.sum_map, Step.measure_lt
-/
import Mathlib.Algebra.BigOperators.Group.List.Basic
import Mathlib.Algebra.Order.BigOperators.Group.List
import Mathlib.Algebra.Order.Ring.Nat
import Mathlib.Tactic.Abel

namespace TaskPool

variable {S L : Type*}

/-- What one task may do in one atomic action: shared and local state before, shared and local state
    after. -/
abbrev Action (S L : Type*) := S → L → S → L → Prop

/-- Some task of the pool takes one action; every other task keeps its local state. -/
inductive Step (act : Action S L) : S × List L → S × List L → Prop where
  | intro {s s' : S} {l l' : L} (before after : List L) :
      act s l s' l' → Step act (s, before ++ l :: after) (s', before ++ l' :: after)

/-- A step names the acting task and the tasks around it. -/
theorem Step.cases_on {act : Action S L} {s s' : S} {pool pool' : List L}
    (h : Step act (s, pool) (s', pool')) :
    ∃ before l l' after, pool = before ++ l :: after ∧ pool' = before ++ l' :: after ∧
      act s l s' l' := by
  generalize hp : (s, pool) = p at h
  generalize hq : (s', pool') = q at h
  cases h with
  | intro before after hact =>
      cases hp
      cases hq
      exact ⟨before, _, _, after, rfl, rfl, hact⟩

/-- Apart from the task that has acted, the tasks after a step are those before. -/
theorem mem_after_act {before after : List L} {l l' m : L} (hm : m ∈ before ++ l' :: after) :
    m = l' ∨ m ∈ before ++ l :: after := by
  rw [List.mem_append, List.mem_cons] at hm ⊢
  rcases hm with hbefore | rfl | hafter
  · exact .inr (.inl hbefore)
  · exact .inl rfl
  · exact .inr (.inr (.inr hafter))

/-- A task that can act gives the pool a step. -/
theorem Step.of_mem {act : Action S L} {s s' : S} {pool : List L} {l l' : L} (hmem : l ∈ pool)
    (hact : act s l s' l') : ∃ pool', Step act (s, pool) (s', pool') := by
  obtain ⟨before, after, rfl⟩ := List.append_of_mem hmem
  exact ⟨_, .intro before after hact⟩

/-- What is known of the running tasks may be added to the action. -/
theorem Step.strengthen {act act' : Action S L} {s s' : S} {pool pool' : List L}
    (h : Step act (s, pool) (s', pool')) (hadd : ∀ l ∈ pool, ∀ l', act s l s' l' → act' s l s' l') :
    Step act' (s, pool) (s', pool') := by
  obtain ⟨before, l, l', after, rfl, rfl, hact⟩ := h.cases_on
  exact .intro before after (hadd l (by simp) l' hact)

/-- Whatever an action leaves alone in the acting task, a step leaves alone in the pool. -/
theorem Step.map_eq {act : Action S L} {β : Type*} {f : L → β} {s s' : S} {pool pool' : List L}
    (hkeep : ∀ l l', act s l s' l' → f l' = f l) (h : Step act (s, pool) (s', pool')) :
    pool'.map f = pool.map f := by
  obtain ⟨before, l, l', after, rfl, rfl, hact⟩ := h.cases_on
  simp [hkeep l l' hact]

/-- A step changes a sum over the pool by what it changes in the acting task. -/
theorem Step.sum_map {act : Action S L} {M : Type*} [AddCommMonoid M] (f : L → M) {s s' : S}
    {pool pool' : List L} (h : Step act (s, pool) (s', pool')) :
    ∃ l ∈ pool, ∃ l', act s l s' l' ∧
      (pool'.map f).sum + f l = (pool.map f).sum + f l' := by
  obtain ⟨before, l, l', after, rfl, rfl, hact⟩ := h.cases_on
  refine ⟨l, by simp, l', hact, ?_⟩
  simp only [List.map_append, List.map_cons, List.sum_append, List.sum_cons]
  abel

/-- A measure of the tasks that drops for the acting task, and rises for no other, drops for the
    pool. -/
theorem Step.measure_lt {act : Action S L} {f : S → L → Nat} {s s' : S} {pool pool' : List L}
    (hown : ∀ l ∈ pool, ∀ l', act s l s' l' → f s' l' < f s l)
    (hother : ∀ m ∈ pool, f s' m ≤ f s m) (h : Step act (s, pool) (s', pool')) :
    (pool'.map (f s')).sum < (pool.map (f s)).sum := by
  obtain ⟨before, l, l', after, rfl, rfl, hact⟩ := h.cases_on
  have hl : f s' l' < f s l := hown l (by simp) l' hact
  have hbefore : (before.map (f s')).sum ≤ (before.map (f s)).sum :=
    List.sum_le_sum fun m hm => hother m (by simp [hm])
  have hafter : (after.map (f s')).sum ≤ (after.map (f s)).sum :=
    List.sum_le_sum fun m hm => hother m (by simp [hm])
  simp only [List.map_append, List.map_cons, List.sum_append, List.sum_cons]
  omega

/-! ### Notes -/

section Notes

variable {N : Type*}

/-- Every task notes what its own actions do to the shared state. -/
def noting (act : Action S L) (note : S → S → N → N) : Action S (L × N) :=
  fun s p s' p' => act s p.1 s' p'.1 ∧ p'.2 = note s s' p.2

variable {act : Action S L} {note : S → S → N → N}

/-- Without its notes the pool takes the same steps. -/
theorem Step.of_noting {s s' : S} {pool pool' : List (L × N)}
    (h : Step (noting act note) (s, pool) (s', pool')) :
    Step act (s, pool.map Prod.fst) (s', pool'.map Prod.fst) := by
  obtain ⟨before, l, l', after, rfl, rfl, hact⟩ := h.cases_on
  simp only [List.map_append, List.map_cons]
  exact .intro _ _ hact.1

/-- The notes stop no step. -/
theorem Step.noting {s s' : S} {pool : List (L × N)} {pool' : List L}
    (h : Step act (s, pool.map Prod.fst) (s', pool')) :
    ∃ noted, noted.map Prod.fst = pool' ∧ Step (noting act note) (s, pool) (s', noted) := by
  obtain ⟨before, l, l', after, hpool, rfl, hact⟩ := h.cases_on
  obtain ⟨before, rest, rfl, rfl, hrest⟩ := List.map_eq_append_iff.1 hpool
  obtain ⟨p, after, rfl, rfl, rfl⟩ := List.map_eq_cons_iff.1 hrest
  refine ⟨before ++ (l', note s s' p.2) :: after, by simp, .intro _ _ ⟨hact, rfl⟩⟩

end Notes

/-- An invariant of a pool, split into what an action can be checked against one at a time. `Owes i`
    and `Paid i` describe the obligation `i`: until the shared state has it, some task still carries
    it. -/
structure Discipline (S L ι : Type*) where
  Shared : S → Prop
  Local : S → L → Prop
  Apart : L → L → Prop
  Owes : ι → S → L → Prop
  Paid : ι → S → Prop

namespace Discipline

variable {ι : Type*} {D : Discipline S L ι} {act : Action S L}

/-- Obligation `i` is in good hands. -/
def Covered (D : Discipline S L ι) (i : ι) (s : S) (pool : List L) : Prop :=
  (∃ l ∈ pool, D.Owes i s l) ∨ D.Paid i s

/-- The invariant of shared state and pool together. -/
structure Holds (D : Discipline S L ι) (s : S) (pool : List L) : Prop where
  shared : D.Shared s
  tasks : ∀ l ∈ pool, D.Local s l
  apart : pool.Pairwise D.Apart
  covered : ∀ i, D.Covered i s pool

/-- The checks on one action: it keeps the shared invariant and its own assertion, it does not
    disturb the assertion of another task, it settles what it owed, and what another task owes stays
    owed. -/
structure Sound (D : Discipline S L ι) (act : Action S L) : Prop where
  symm : ∀ l m, D.Apart l m → D.Apart m l
  apart : ∀ s l s' l' m, act s l s' l' → D.Shared s → D.Local s l → D.Local s m → D.Apart l m →
    D.Apart l' m
  own : ∀ s l s' l', act s l s' l' → D.Shared s → D.Local s l → D.Shared s' ∧ D.Local s' l'
  stable : ∀ s l s' l' m, act s l s' l' → D.Shared s → D.Local s l → D.Apart l m →
    D.Local s m → D.Local s' m
  settle : ∀ s l s' l' i, act s l s' l' → D.Shared s → D.Local s l →
    D.Owes i s l ∨ D.Paid i s → D.Owes i s' l' ∨ D.Paid i s'
  keep : ∀ s l s' l' m i, act s l s' l' → D.Shared s → D.Local s l → D.Apart l m → D.Local s m →
    D.Owes i s m → D.Owes i s' m ∨ D.Owes i s' l' ∨ D.Paid i s'

/-- The tasks around the acting one are apart from it on either side. -/
private theorem mem_around {before after : List L} {l m : L} :
    m ∈ before ++ l :: after ↔ m = l ∨ m ∈ before ∨ m ∈ after := by
  rw [List.mem_append, List.mem_cons, or_left_comm]

private theorem apart_of_mem (hsymm : ∀ l m, D.Apart l m → D.Apart m l) {before after : List L}
    {l m : L} (hapart : (before ++ l :: after).Pairwise D.Apart) (hm : m ∈ before ∨ m ∈ after) :
    D.Apart l m := by
  rw [List.pairwise_append, List.pairwise_cons] at hapart
  obtain ⟨-, ⟨hafter, -⟩, hcross⟩ := hapart
  rcases hm with hm | hm
  · exact hsymm m l (hcross m hm l (by simp))
  · exact hafter m hm

/-- The rule: a sound discipline survives every step of the pool. -/
theorem Sound.step (hsound : D.Sound act) {s s' : S} {pool pool' : List L}
    (hstep : Step act (s, pool) (s', pool')) (h : D.Holds s pool) : D.Holds s' pool' := by
  obtain ⟨before, l, l', after, rfl, rfl, hact⟩ := hstep.cases_on
  have hlocal : D.Local s l := h.tasks l (by simp)
  have hothers : ∀ m, m ∈ before ∨ m ∈ after → D.Apart l m ∧ D.Local s m := by
    intro m hm
    refine ⟨apart_of_mem hsound.symm h.apart hm, h.tasks m ?_⟩
    rcases hm with hm | hm <;> simp [hm]
  have hown := hsound.own s l s' l' hact h.shared hlocal
  refine ⟨hown.1, ?_, ?_, ?_⟩
  · intro m hm
    rcases mem_around.1 hm with rfl | hm
    · exact hown.2
    · exact hsound.stable s l s' l' m hact h.shared hlocal (hothers m hm).1 (hothers m hm).2
  · have hapart := h.apart
    rw [List.pairwise_append, List.pairwise_cons] at hapart ⊢
    obtain ⟨hb, ⟨hla, ha⟩, hcross⟩ := hapart
    have hmoved : ∀ m, m ∈ before ∨ m ∈ after → D.Apart l' m := fun m hm =>
      hsound.apart s l s' l' m hact h.shared hlocal (hothers m hm).2 (hothers m hm).1
    refine ⟨hb, ⟨fun m hm => hmoved m (Or.inr hm), ha⟩, ?_⟩
    intro m hm k hk
    rcases List.mem_cons.1 hk with rfl | hk
    · exact hsound.symm _ _ (hmoved m (Or.inl hm))
    · exact hcross m hm k (by simp [hk])
  · intro i
    have hacting : D.Owes i s' l' ∨ D.Paid i s' → D.Covered i s' (before ++ l' :: after) := by
      rintro (howes | hpaid)
      · exact Or.inl ⟨l', by simp, howes⟩
      · exact Or.inr hpaid
    rcases h.covered i with ⟨m, hm, howes⟩ | hpaid
    · rcases mem_around.1 hm with rfl | hm
      · exact hacting (hsound.settle s m s' l' i hact h.shared hlocal (Or.inl howes))
      · rcases hsound.keep s l s' l' m i hact h.shared hlocal (hothers m hm).1 (hothers m hm).2
          howes with hstill | hrest
        · refine Or.inl ⟨m, ?_, hstill⟩
          rcases hm with hm | hm <;> simp [hm]
        · exact hacting hrest
    · exact hacting (hsound.settle s l s' l' i hact h.shared hlocal (Or.inr hpaid))

end Discipline

end TaskPool
