/-
Module: FamGraph.Proofs.UpdateAtomic
Layer: Proofs
Purpose: `update_atomic` is an atomic minimum. The test looks at a newer label than the `current` of
  the exchange, but the label only falls: at the exchange it is at most `current`, and the proposal
  is smaller than `current`. So an exchange that finds `current` replaces the label by a smaller
  one, and a call that gives up has seen a label no larger than its proposal, which stays so. The
  calls of `CC_push` are calls of this kind.
Trusted boundary: none
Main exports: Acts, Holds, label_le_of_acts, discipline, discipline_sound, updateAtomic_minimum,
  act_inside
-/
import FamGraph.Core.UpdateAtomic
import FamGraph.Proofs.ConnectedComponents
import Mathlib.Order.Bounds.Basic

namespace FamGraph.ConnectedComponents.UpdateAtomic

/-! ### The atomic steps -/

/-- The atomic steps of a call, one constructor for each outcome. -/
inductive Acts : ComponentVertex → Call → ComponentVertex → Call → Prop where
  | load {x p} : Acts x (.load p) x (.check p x.id)
  | improves {x p current} : p < x.id → Acts x (.check p current) x (.exchange p current)
  | settled {x p current} : x.id ≤ p → Acts x (.check p current) x (.returned p false)
  | won {x p} : Acts x (.exchange p x.id) { id := p } (.returned p true)
  | lost {x p current} : Acts x (.exchange p current) x (.check p x.id)

/-- `Call.step` takes no other step. -/
theorem acts_of_act {x x' : ComponentVertex} {c c' : Call} (h : CallAct x c x' c') :
    Acts x c x' c' := by
  obtain ⟨spurious, h⟩ := h
  cases c with
  | load p =>
      simp only [Call.step, Option.some.injEq, Prod.mk.injEq] at h
      obtain ⟨rfl, rfl⟩ := h
      exact .load
  | check p current =>
      by_cases hlt : p < x.id
      · simp only [Call.step, ComponentVertex.shouldUpdate, hlt, decide_true, if_true,
          Option.some.injEq, Prod.mk.injEq] at h
        obtain ⟨rfl, rfl⟩ := h
        exact .improves hlt
      · simp only [Call.step, ComponentVertex.shouldUpdate, hlt, decide_false, Bool.false_eq_true,
          if_false, Option.some.injEq, Prod.mk.injEq] at h
        obtain ⟨rfl, rfl⟩ := h
        exact .settled (Nat.le_of_not_lt hlt)
  | exchange p current =>
      by_cases hwon : x.id = current ∧ spurious = false
      · simp only [Call.step, if_pos hwon, Option.some.injEq, Prod.mk.injEq] at h
        obtain ⟨rfl, rfl⟩ := h
        exact hwon.1 ▸ .won
      · simp only [Call.step, if_neg hwon, Option.some.injEq, Prod.mk.injEq] at h
        obtain ⟨rfl, rfl⟩ := h
        exact .lost
  | returned p ret => simp [Call.step] at h

/-- A call that has not returned can act. -/
theorem exists_act (x : ComponentVertex) {c : Call} (h : c.ret? = none) :
    ∃ x' c', CallAct x c x' c' := by
  cases c with
  | load p => exact ⟨_, _, false, rfl⟩
  | check p current =>
      by_cases hlt : x.shouldUpdate p = true
      · exact ⟨x, .exchange p current, false, by simp [Call.step, hlt]⟩
      · exact ⟨x, .returned p false, false, by simp [Call.step, hlt]⟩
  | exchange p current => exact ⟨x, .check p x.id, true, by simp [Call.step]⟩
  | returned p ret => cases h

theorem proposedLabel_of_acts {x x' : ComponentVertex} {c c' : Call} (h : Acts x c x' c') :
    c'.proposedLabel = c.proposedLabel := by
  cases h <;> rfl

/-! ### What a call knows -/

variable {label : Nat} {proposals : List Nat}

/-- The assertion of a call: about its local `current`, about the label once it has returned, and
    about what it has replaced. -/
def Holds (x : ComponentVertex) : NotedCall → Prop
  | (.load _, replaced) => replaced = []
  | (.check _ current, replaced) => x.id ≤ current ∧ replaced = []
  | (.exchange p current, replaced) => x.id ≤ current ∧ p < current ∧ replaced = []
  | (.returned p false, replaced) => x.id ≤ p ∧ replaced = []
  | (.returned p true, replaced) => x.id ≤ p ∧ ∃ old, p < old ∧ replaced = [(old, p)]

/-- Every assertion survives a fall of the label. -/
theorem Holds.mono {x x' : ComponentVertex} {c : NotedCall} (h : Holds x c) (hfall : x'.id ≤ x.id) :
    Holds x' c := by
  obtain ⟨c, replaced⟩ := c
  cases c with
  | load p => exact h
  | check p current => exact ⟨Nat.le_trans hfall h.1, h.2⟩
  | exchange p current => exact ⟨Nat.le_trans hfall h.1, h.2⟩
  | returned p ret =>
      cases ret with
      | false => exact ⟨Nat.le_trans hfall h.1, h.2⟩
      | true => exact ⟨Nat.le_trans hfall h.1, h.2⟩

/-- A call that has returned has seen a label no larger than its proposal. -/
theorem Holds.label_le_of_returned {x : ComponentVertex} {c : NotedCall} (h : Holds x c)
    (hreturned : c.1.ret?.isSome) : x.id ≤ c.1.proposedLabel := by
  obtain ⟨c, replaced⟩ := c
  cases c with
  | returned p ret =>
      cases ret with
      | false => exact h.1
      | true => exact h.1
  | load p => cases hreturned
  | check p current => cases hreturned
  | exchange p current => cases hreturned

/-- The result of a call tells what it has replaced. -/
theorem Holds.returned_iff {x : ComponentVertex} {p : Nat} {ret : Bool}
    {replaced : List (Nat × Nat)} (h : Holds x (.returned p ret, replaced)) :
    (ret = true ↔ ∃ old, p < old ∧ replaced = [(old, p)]) ∧ (ret = false ↔ replaced = []) := by
  cases ret with
  | false =>
      obtain ⟨-, rfl⟩ := h
      simp
  | true =>
      obtain ⟨-, old, hlt, rfl⟩ := h
      simp [hlt]

/-- The label never rises: an exchange that finds `current` puts a smaller one in its place. -/
theorem label_le_of_acts {x x' : ComponentVertex} {c c' : Call} {replaced : List (Nat × Nat)}
    (h : Acts x c x' c') (hc : Holds x (c, replaced)) : x'.id ≤ x.id := by
  cases h with
  | won => exact Nat.le_of_lt hc.2.1
  | load => exact Nat.le_refl _
  | improves => exact Nat.le_refl _
  | settled => exact Nat.le_refl _
  | lost => exact Nat.le_refl _

theorem note_self (x : ComponentVertex) (replaced : List (Nat × Nat)) :
    note x x replaced = replaced := if_pos rfl

/-- A call keeps its own assertion. -/
theorem holds_of_acts {x x' : ComponentVertex} {c c' : Call} {replaced : List (Nat × Nat)}
    (h : Acts x c x' c') (hc : Holds x (c, replaced)) : Holds x' (c', note x x' replaced) := by
  cases h with
  | load =>
      rw [note_self]
      exact ⟨Nat.le_refl _, hc⟩
  | improves hlt =>
      rw [note_self]
      exact ⟨hc.1, Nat.lt_of_lt_of_le hlt hc.1, hc.2⟩
  | settled hle =>
      rw [note_self]
      exact ⟨hle, hc.2⟩
  | @won p =>
      have hne : ¬ p = x.id := Nat.ne_of_lt hc.2.1
      have hnoted : note x { id := p } replaced = [(x.id, p)] := by
        rw [note, if_neg hne, hc.2.2]
        rfl
      rw [hnoted]
      exact ⟨Nat.le_refl _, x.id, hc.2.1, rfl⟩
  | lost =>
      rw [note_self]
      exact ⟨Nat.le_refl _, hc.2.2⟩

/-- The label is one of those it may become, and calls know their assertions. No call owes another
    anything. -/
def discipline (label : Nat) (proposals : List Nat) :
    TaskPool.Discipline ComponentVertex NotedCall Empty where
  Shared x := x.id ≤ label ∧ x.id ∈ label :: proposals
  Local x c := c.1.proposedLabel ∈ proposals ∧ Holds x c
  Apart _ _ := True
  Owes i _ _ := i.elim
  Paid i _ := i.elim

theorem discipline_sound :
    (discipline label proposals).Sound (TaskPool.noting CallAct note) where
  symm _ _ _ := trivial
  apart _ _ _ _ _ _ _ _ _ _ := trivial
  own x c x' c' hact hx hc := by
    obtain ⟨c, replaced⟩ := c
    obtain ⟨c', replaced'⟩ := c'
    obtain ⟨hact, hnoted⟩ := hact
    have h := acts_of_act hact
    have hfall := label_le_of_acts h hc.2
    have hlabel : x'.id ∈ label :: proposals := by
      cases h with
      | won => exact List.mem_cons_of_mem _ hc.1
      | load => exact hx.2
      | improves => exact hx.2
      | settled => exact hx.2
      | lost => exact hx.2
    simp only at hnoted
    subst hnoted
    exact ⟨⟨Nat.le_trans hfall hx.1, hlabel⟩, (proposedLabel_of_acts h).symm ▸ hc.1,
      holds_of_acts h hc.2⟩
  stable x c x' c' m hact hx hc _ hm :=
    ⟨hm.1, hm.2.mono (label_le_of_acts (acts_of_act hact.1) hc.2)⟩
  settle _ _ _ _ i := i.elim
  keep _ _ _ _ _ i := i.elim

/-! ### Runs -/

theorem discipline_holds {x : ComponentVertex} {calls : List NotedCall}
    (h : (notedSystem label proposals).Reachable (x, calls)) :
    (discipline label proposals).Holds x calls := by
  apply TransitionSystem.Reachable.induct
    (I := fun s => (discipline label proposals).Holds s.1 s.2) _ _ h
  · rintro s rfl
    refine ⟨⟨Nat.le_refl _, List.mem_cons_self⟩, ?_, ?_, fun i => i.elim⟩
    · intro c hc
      obtain ⟨p, hp, rfl⟩ := List.mem_map.1 hc
      exact ⟨hp, rfl⟩
    · exact List.pairwise_of_forall fun _ _ => trivial
  · intro s t _ hs hstep
    exact discipline_sound.step hstep hs

/-- A step changes no call's proposal. -/
theorem proposals_of_reachable {x : ComponentVertex} {calls : List NotedCall}
    (h : (notedSystem label proposals).Reachable (x, calls)) :
    calls.map (fun c => c.1.proposedLabel) = proposals := by
  apply TransitionSystem.Reachable.induct
    (I := fun s => s.2.map (fun c => c.1.proposedLabel) = proposals) _ _ h
  · rintro s rfl
    rw [List.map_map]
    exact List.map_id proposals
  · intro s t _ hs hstep
    rw [← hs]
    exact TaskPool.Step.map_eq (fun c c' hact => proposedLabel_of_acts (acts_of_act hact.1)) hstep

/-- The notes decide nothing: the calls run as they do without them. -/
theorem reachable_noted {x : ComponentVertex} {calls : List Call}
    (h : (system label proposals).Reachable (x, calls)) :
    ∃ noted, noted.map Prod.fst = calls ∧ (notedSystem label proposals).Reachable (x, noted) := by
  apply TransitionSystem.Reachable.induct (I := fun s => ∃ noted, noted.map Prod.fst = s.2 ∧
    (notedSystem label proposals).Reachable (s.1, noted)) _ _ h
  · rintro s rfl
    exact ⟨proposals.map fun p => (.load p, []), by rw [List.map_map]; rfl, .of_init rfl⟩
  · rintro ⟨x, calls⟩ ⟨x', calls'⟩ _ ⟨noted, rfl, hnoted⟩ hstep
    obtain ⟨noted', hcalls', hstep'⟩ := TaskPool.Step.noting hstep
    exact ⟨noted', hcalls', hnoted.step hstep'⟩

theorem reachable_of_noted {x : ComponentVertex} {calls : List NotedCall}
    (h : (notedSystem label proposals).Reachable (x, calls)) :
    (system label proposals).Reachable (x, calls.map Prod.fst) := by
  apply TransitionSystem.Reachable.induct
    (I := fun s => (system label proposals).Reachable (s.1, s.2.map Prod.fst)) _ _ h
  · rintro s rfl
    refine .of_init ?_
    rw [List.map_map]
    rfl
  · intro s t _ hs hstep
    exact hs.step (TaskPool.Step.of_noting hstep)

/-- No state is stuck before all calls have returned. -/
theorem exists_step_of_not_final {s : ComponentVertex × List Call}
    (h : ¬ (system label proposals).final s) : ∃ t, (system label proposals).step s t := by
  obtain ⟨x, calls⟩ := s
  obtain ⟨c, hc, hrunning⟩ : ∃ c ∈ calls, ¬ c.ret?.isSome := by
    by_contra hall
    push Not at hall
    exact h hall
  obtain ⟨x', c', hact⟩ := exists_act x (Option.not_isSome_iff_eq_none.1 hrunning)
  obtain ⟨calls', hstep⟩ := TaskPool.Step.of_mem hc hact
  exact ⟨(x', calls'), hstep⟩

/-- `update_atomic` is an atomic minimum. In every state that any interleaving of the calls reaches
    from any label: the label is at most the initial one and no step raises it; a call that has
    returned `true` has replaced the label once, by its proposal, which was smaller, and a call that
    has returned `false` has replaced nothing; and when all calls have returned, the label is the
    least of the initial one and the proposals. -/
theorem updateAtomic_minimum (label : Nat) (proposals : List Nat) {x : ComponentVertex}
    {calls : List NotedCall} (h : (notedSystem label proposals).Reachable (x, calls)) :
    calls.map (fun c => c.1.proposedLabel) = proposals ∧ x.id ≤ label ∧
    (∀ x' calls', (notedSystem label proposals).step (x, calls) (x', calls') → x'.id ≤ x.id) ∧
    (∀ c ∈ calls, ∀ p ret, c.1 = .returned p ret →
      (ret = true ↔ ∃ old, p < old ∧ c.2 = [(old, p)]) ∧ (ret = false ↔ c.2 = [])) ∧
    ((notedSystem label proposals).final (x, calls) →
      IsLeast {l | l ∈ label :: proposals} x.id) := by
  have hholds := discipline_holds h
  have hproposals := proposals_of_reachable h
  refine ⟨hproposals, hholds.shared.1, ?_, ?_, ?_⟩
  · intro x' calls' hstep
    obtain ⟨before, c, c', after, rfl, rfl, hact⟩ := TaskPool.Step.cases_on hstep
    exact label_le_of_acts (acts_of_act hact.1) (hholds.tasks c (by simp)).2
  · rintro ⟨c, replaced⟩ hc p ret rfl
    exact (hholds.tasks _ hc).2.returned_iff
  · intro hreturned
    refine ⟨hholds.shared.2, fun l hl => ?_⟩
    rcases List.mem_cons.1 hl with rfl | hl
    · exact hholds.shared.1
    · rw [← hproposals] at hl
      obtain ⟨c, hc, rfl⟩ := List.mem_map.1 hl
      exact (hholds.tasks c hc).2.label_le_of_returned (hreturned c hc)

/-- Two calls that load the same label. The one with the larger proposal is first; the other one's
    exchange finds `current` outdated and is tried again. -/
theorem reachable_two_calls : (notedSystem 7 [3, 5]).Reachable
    ({ id := 3 }, [(.returned 3 true, [(5, 3)]), (.returned 5 true, [(7, 5)])]) := by
  have h : (notedSystem 7 [3, 5]).Reachable ({ id := 7 }, [(.load 3, []), (.load 5, [])]) :=
    .of_init rfl
  have h : (notedSystem 7 [3, 5]).Reachable ({ id := 7 }, [(.check 3 7, []), (.load 5, [])]) :=
    h.step (.intro [] _ ⟨⟨false, rfl⟩, rfl⟩)
  have h : (notedSystem 7 [3, 5]).Reachable ({ id := 7 }, [(.check 3 7, []), (.check 5 7, [])]) :=
    h.step (.intro [_] _ ⟨⟨false, rfl⟩, rfl⟩)
  have h :
      (notedSystem 7 [3, 5]).Reachable ({ id := 7 }, [(.exchange 3 7, []), (.check 5 7, [])]) :=
    h.step (.intro [] _ ⟨⟨false, rfl⟩, rfl⟩)
  have h :
      (notedSystem 7 [3, 5]).Reachable ({ id := 7 }, [(.exchange 3 7, []), (.exchange 5 7, [])]) :=
    h.step (.intro [_] _ ⟨⟨false, rfl⟩, rfl⟩)
  have h : (notedSystem 7 [3, 5]).Reachable
      ({ id := 5 }, [(.exchange 3 7, []), (.returned 5 true, [(7, 5)])]) :=
    h.step (.intro [_] _ ⟨⟨false, rfl⟩, rfl⟩)
  have h : (notedSystem 7 [3, 5]).Reachable
      ({ id := 5 }, [(.check 3 5, []), (.returned 5 true, [(7, 5)])]) :=
    h.step (.intro [] _ ⟨⟨false, rfl⟩, rfl⟩)
  have h : (notedSystem 7 [3, 5]).Reachable
      ({ id := 5 }, [(.exchange 3 5, []), (.returned 5 true, [(7, 5)])]) :=
    h.step (.intro [] _ ⟨⟨false, rfl⟩, rfl⟩)
  exact h.step (.intro [] _ ⟨⟨false, rfl⟩, rfl⟩)

theorem updateAtomic_minimum_two_calls : IsLeast {l | l ∈ [7, 3, 5]} 3 := by
  have hfinal : ∀ c ∈ [(Call.returned 3 true, [(5, 3)]), (Call.returned 5 true, [(7, 5)])],
      c.1.ret?.isSome := by decide
  exact (updateAtomic_minimum 7 [3, 5] reachable_two_calls).2.2.2.2 hfinal

/-! ### The calls of `CC_push` -/

variable {threads : Nat} {G : Graph}

/-- A push for `v` on its edge to `w`, and the call of `update_atomic` it is in. -/
inductive Inside (v w : G.Vertex) (rest : List G.Vertex) : Push G → Call → Prop where
  | load {my_id} : Inside v w rest (.load v my_id (w :: rest)) (.load my_id)
  | check {my_id current} : Inside v w rest (.check v my_id w current rest) (.check my_id current)
  | exchange {my_id current} :
      Inside v w rest (.exchange v my_id w current rest) (.exchange my_id current)
  | lowered {my_id} : Inside v w rest (.activate v my_id w rest) (.returned my_id true)
  | kept {my_id} : Inside v w rest (.load v my_id rest) (.returned my_id false)

/-- Until the call has returned, a step of the push is a step of the call on the vertex `w`, and
    touches neither another vertex nor the frontier. -/
theorem act_inside {v w : G.Vertex} {rest : List G.Vertex} {s s' : Shared G} {b b' : Bitmap threads}
    {l l' : Push G} {c : Call} (h : (kernel threads G).Act (s, b) l (s', b') l')
    (hin : Inside v w rest l c) (hrunning : c.ret? = none) :
    ∃ c', CallAct (s.vtable w) c (s'.vtable w) c' ∧ Inside v w rest l' c' ∧ b' = b ∧
      ∀ u, u ≠ w → s'.vtable u = s.vtable u := by
  have hact := ConnectedComponents.acts_of_act h
  cases hin with
  | load =>
      cases hact with
      | load => exact ⟨_, ⟨false, rfl⟩, .check, rfl, fun _ _ => rfl⟩
  | @check my_id current =>
      cases hact with
      | improves hlt =>
          have hcall :
              CallAct (s.vtable w) (.check my_id current) (s.vtable w) (.exchange my_id current) :=
            ⟨false, by simp [Call.step, ComponentVertex.shouldUpdate, hlt]⟩
          exact ⟨_, hcall, .exchange, rfl, fun _ _ => rfl⟩
      | settled hle =>
          have hcall :
              CallAct (s.vtable w) (.check my_id current) (s.vtable w) (.returned my_id false) :=
            ⟨false, by simp [Call.step, ComponentVertex.shouldUpdate, hle]⟩
          exact ⟨_, hcall, .kept, rfl, fun _ _ => rfl⟩
  | @exchange my_id current =>
      have hfails : CallAct (s.vtable w) (.exchange my_id current) (s.vtable w)
          (.check my_id (s.vtable w).id) := ⟨true, by simp [Call.step]⟩
      cases hact with
      | won =>
          have hstored : (s.store w { id := my_id }).vtable w = { id := my_id } := by
            rw [store_vtable, if_pos rfl]
          have hcall : CallAct (s.vtable w) (.exchange my_id (s.vtable w).id) { id := my_id }
              (.returned my_id true) := ⟨false, by simp [Call.step]⟩
          rw [← hstored] at hcall
          exact ⟨_, hcall, .lowered, rfl, fun u hu => by rw [store_vtable, if_neg hu]⟩
      | lost => exact ⟨_, hfails, .check, rfl, fun _ _ => rfl⟩
      | spurious => exact ⟨_, hfails, .check, rfl, fun _ _ => rfl⟩
  | lowered => cases hrunning
  | kept => cases hrunning

end FamGraph.ConnectedComponents.UpdateAtomic
