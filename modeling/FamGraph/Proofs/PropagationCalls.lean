/-
Module: FamGraph.Proofs.PropagationCalls
Layer: Proofs
Purpose: How often label propagation asks its driver for a vertex, and how long it goes on. A vertex
  is asked for again only after its label has fallen, and its labels are ids of vertices that reach
  it; so the calls for it are paid out of the ids between its label and its own. After `r` rounds a
  vertex has a label no greater than any id that `r` arcs or fewer lead from, whichever way the
  pushes interleave, and nobody is activated once all labels are least.
Trusted boundary: none
Main exports: Budgeted, callInvariant_kept, components_ask_within_budget, components_rounds_le
-/
import FamGraph.Proofs.CallHistory
import Mathlib.Data.Set.Card

namespace FamGraph.ConnectedComponents

variable {threads : Nat} {G : Graph}

/-! ### The calls for one vertex -/

/-- The vertices that reach `v` and have an id between the label of `v` and `v`. -/
def passed (s : Shared G) (v : G.Vertex) : Set G.Vertex :=
  {u | G.adjacency.Reaches u v ∧ (s.vtable v).id ≤ u ∧ u ≤ v}

/-- No call can have asked for a vertex more often than once for each of these. -/
noncomputable def budget (s : Shared G) (v : G.Vertex) : Nat := (passed s v).ncard

/-- A label that falls to an id of a vertex that reaches `v` adds to the budget of `v`. -/
theorem budget_lt {s s' : Shared G} {v : G.Vertex} (hlt : (s'.vtable v).id < (s.vtable v).id)
    (hcarried : Carried G (s'.vtable v).id v) (hle : (s'.vtable v).id ≤ v) :
    budget s v < budget s' v := by
  obtain ⟨u, hu, hreach⟩ := hcarried
  apply Set.ncard_lt_ncard _ (Set.toFinite _)
  rw [Set.ssubset_iff_of_subset]
  · refine ⟨u, ⟨hreach, Nat.le_of_eq hu.symm, ?_⟩, fun hold => ?_⟩
    · rw [Fin.le_def, hu]
      exact hle
    · exact absurd hold.2.1 (Nat.not_le.2 (hu ▸ hlt))
  · rintro x ⟨hx, hid, hxv⟩
    exact ⟨hx, Nat.le_trans (Nat.le_of_lt hlt) hid, hxv⟩

theorem budget_mono {s s' : Shared G} {v : G.Vertex} (hle : (s'.vtable v).id ≤ (s.vtable v).id) :
    budget s v ≤ budget s' v := by
  apply Set.ncard_le_ncard _ (Set.toFinite _)
  rintro x ⟨hx, hid, hxv⟩
  exact ⟨hx, Nat.le_trans hle hid, hxv⟩

/-- A vertex becomes due for the next round only when its label falls. -/
theorem Acts.due_or_lt {p p' : Shared G × Bitmap threads} {l l' : Push G} (h : Acts p l p' l')
    (hl : l.Current p.1) {v : G.Vertex} (hdue : p'.2.Active v ∨ l'.Claims v) :
    (p.2.Active v ∨ l.Claims v) ∨ (p'.1.vtable v).id < (p.1.vtable v).id := by
  cases h with
  | @won s b x my_id w rest =>
      rcases hdue with hactive | hclaims
      · exact .inl (.inl hactive)
      · obtain rfl : w = v := hclaims
        refine .inr ?_
        rw [store_vtable, if_pos rfl]
        exact hl.2
  | @activate s b x my_id w rest t =>
      rcases hdue with hactive | hclaims
      · rcases (Bitmap.active_setBit b t w v).1 hactive with heq | hold
        · exact .inl (.inr (Fin.ext heq).symm)
        · exact .inl (.inl hold)
      · exact hclaims.elim
  | _ =>
      rcases hdue with hactive | hclaims
      · exact .inl (.inl hactive)
      · exact hclaims.elim

/-- Active for the next round, or claimed by a push. -/
def Due (p : Shared G × Bitmap threads) (pool : List (Push G)) (v : G.Vertex) : Prop :=
  p.2.Active v ∨ ∃ l ∈ pool, l.Claims v

theorem due_or_lt {p p' : Shared G × Bitmap threads} {pool pool' : List (Push G)}
    (hpool : TaskPool.Step (kernel threads G).Act (p, pool) (p', pool'))
    (hholds : (discipline threads G).Holds p pool) {v : G.Vertex} (hdue : Due p' pool' v) :
    Due p pool v ∨ (p'.1.vtable v).id < (p.1.vtable v).id := by
  obtain ⟨before, l, l', after, rfl, rfl, hact⟩ := hpool.cases_on
  have hcurrent : l.Current p.1 := (hholds.tasks l (by simp)).2.2
  have hown : p'.2.Active v ∨ l'.Claims v → Due p (before ++ l :: after) v ∨
      (p'.1.vtable v).id < (p.1.vtable v).id := by
    intro hdue
    refine ((acts_of_act hact).due_or_lt hcurrent hdue).imp_left ?_
    exact Or.imp_right fun hclaims => ⟨l, by simp, hclaims⟩
  rcases hdue with hactive | ⟨m, hm, hclaims⟩
  · exact hown (.inl hactive)
  · rcases TaskPool.mem_after_act (l := l) hm with rfl | hold
    · exact hown (.inr hclaims)
    · exact .inl (.inr ⟨m, hold, hclaims⟩)

/-- The calls for every vertex are within its budget, and so is the next one if it is due. -/
def Budgeted (frontiers : List (Bitmap threads)) (s : Shared G) (due : G.Vertex → Prop) : Prop :=
  ∀ v, (G.requested frontiers).count v ≤ budget s v ∧
  (due v → (G.requested frontiers).count v < budget s v)

/-- The loop invariant, with the calls within their budgets. -/
def callInvariant (threads : Nat) (G : Graph) (frontiers : List (Bitmap threads)) :
    PushKernel.LoopInvariant threads (Shared G) (Push G) where
  Head s frontier next_frontier := AtHead s frontier next_frontier ∧
    Budgeted frontiers s fun v => frontier.Active v
  Running frontier p pool := (loopInvariant threads G).Running frontier p pool ∧
    Budgeted frontiers p.1 (Due p pool)

/-- At the start of a round nobody is due. -/
theorem not_due_tasks {s : Shared G} {frontier next_frontier : Bitmap threads}
    (hnext : ∀ v : G.Vertex, ¬ next_frontier.Active v) (v : G.Vertex) :
    ¬ Due (s, next_frontier) ((kernel threads G).tasks frontier) v := by
  rintro (hactive | ⟨l, hl, hclaims⟩)
  · exact hnext v hactive
  · obtain ⟨u, -, -, rfl⟩ := PushKernel.mem_tasks.1 hl
    exact hclaims

/-- The call for a frontier spends what its vertices are due. -/
theorem Budgeted.concat {frontiers : List (Bitmap threads)} {frontier : Bitmap threads}
    {s : Shared G} {due : G.Vertex → Prop} (h : Budgeted frontiers s fun v => frontier.Active v)
    (hdue : ∀ v, ¬ due v) :
    Budgeted (frontiers ++ [frontier]) s due := by
  intro v
  refine ⟨?_, fun hv => absurd hv (hdue v)⟩
  rw [Graph.requested_concat, List.count_append, (G.nodup_calls _).count]
  split
  · rename_i hcall
    exact (h v).2 (of_decide_eq_true (Graph.mem_calls.1 hcall).1)
  · exact (h v).1

/-- A step of a push pays for the calls it makes due by the label it lowers. -/
theorem Budgeted.step {frontiers : List (Bitmap threads)} {p p' : Shared G × Bitmap threads}
    {pool pool' : List (Push G)} (h : Budgeted frontiers p.1 (Due p pool))
    (hpool : TaskPool.Step (kernel threads G).Act (p, pool) (p', pool'))
    (hholds : (discipline threads G).Holds p pool) : Budgeted frontiers p'.1 (Due p' pool') := by
  have hlabels := (discipline_sound.step hpool hholds).shared.2
  intro v
  obtain ⟨l, hl, l', hact, -⟩ := hpool.sum_map fun _ => 0
  have hfall := (acts_of_act hact).id_le (hholds.tasks l hl).2.2 v
  obtain ⟨hspent, hnext⟩ := h v
  refine ⟨Nat.le_trans hspent (budget_mono hfall), fun hdue => ?_⟩
  rcases due_or_lt hpool hholds hdue with hold | hlt
  · exact Nat.lt_of_lt_of_le (hnext hold) (budget_mono hfall)
  · exact Nat.lt_of_le_of_lt hspent (budget_lt hlt (hlabels v).1 (hlabels v).2)

theorem callInvariant_kept : PushKernel.KeptAlong (kernel threads G) (callInvariant threads G) where
  enter _ _ _ _ h _ :=
    ⟨enter_kept h.1, h.2.concat (not_due_tasks h.1.next_empty)⟩
  push _ _ _ _ _ _ h hpool :=
    ⟨loopInvariant_kept.push _ _ _ _ _ h.1 hpool, h.2.step hpool h.1.2⟩
  leave _ _ _ _ _ h hall :=
    ⟨leave_kept h.1 hall, fun v => ⟨(h.2 v).1, fun hactive => (h.2 v).2 (.inl hactive)⟩⟩

/-- Before the first call every vertex is due, under its own id. -/
theorem budgeted_initial (helpers spurious : Nat) :
    Budgeted ([] : List (Bitmap (helpers + 1))) (initial helpers G spurious).shared
      fun v => (initial helpers G spurious).frontier.Active v := by
  intro v
  refine ⟨Nat.zero_le _, fun _ => ?_⟩
  rw [budget, Graph.requested, List.flatMap_nil, List.count_nil, Set.ncard_pos (Set.toFinite _)]
  exact ⟨v, .refl v, Nat.le_refl _, Nat.le_refl _⟩

/-- For every interleaving of the pushes, connected components asks its driver for a vertex at most
    once for each vertex that reaches it and has an id between its label and its own. -/
theorem components_ask_within_budget (helpers : Nat) (G : Graph) :
    ∀ s frontiers, (drives (system helpers G)).Reachable (s, frontiers) → ∀ v : G.Vertex,
      (G.requested frontiers).count v ≤
        {u : G.Vertex | G.adjacency.Reaches u v ∧ (s.shared.vtable v).id ≤ u ∧ u ≤ v}.ncard := by
  intro s frontiers hs v
  have hat : (callInvariant (helpers + 1) G frontiers).At s := by
    refine callInvariant_kept.reachable (fun t ht => ?_) hs
    obtain ⟨spurious, rfl⟩ := ht
    exact ⟨atHead_initial helpers spurious, budgeted_initial helpers spurious⟩
  obtain ⟨shared, frontier, next_frontier, control⟩ := s
  cases control with
  | head => exact (hat.2 v).1
  | pushing pool => exact (hat.2 v).1
  | stopped => exact (hat.1.2 v).1

/-- On a single edge the vertex of the least id is asked for once at most. -/
theorem components_ask_within_budget_edge : ∃ s frontiers,
    (drives (system 1 Graph.edge)).Reachable (s, frontiers) ∧ s.control = .stopped ∧
      (Graph.edge.requested frontiers).count ⟨0, by decide⟩ ≤ 1 := by
  obtain ⟨s, hs, hstopped⟩ := exists_stopped 1 Graph.edge
  obtain ⟨frontiers, hrun⟩ := exists_drives hs
  refine ⟨s, frontiers, hrun, hstopped, ?_⟩
  have hwithin := components_ask_within_budget 1 Graph.edge s frontiers hrun ⟨0, by decide⟩
  refine Nat.le_trans hwithin ((Set.ncard_le_one (Set.toFinite _)).2 ?_)
  rintro a ⟨-, -, ha⟩ b ⟨-, -, hb⟩
  exact Fin.ext ((Nat.le_zero.1 ha).trans (Nat.le_zero.1 hb).symm)

/-! ### The number of calls -/

/-- No label is greater than an id that `r` arcs or fewer lead from. -/
def Near (r : Nat) (s : Shared G) : Prop :=
  ∀ k ≤ r, ∀ u v : G.Vertex, G.adjacency.Walk u k v → (s.vtable v).id ≤ u

theorem Near.of_id_le {r : Nat} {s s' : Shared G} (h : Near r s)
    (hle : ∀ v, (s'.vtable v).id ≤ (s.vtable v).id) : Near r s' :=
  fun k hk u v hwalk => Nat.le_trans (hle v) (h k hk u v hwalk)

/-- The argument for the round after `r` others. Obligation `(u, w)`: the id `u` is passed on to
    `w`, if `r + 1` arcs lead there. -/
def nearDiscipline (threads : Nat) (G : Graph) (r : Nat) :
    TaskPool.Discipline (Shared G × Bitmap threads) (Push G) (G.Vertex × G.Vertex) where
  Shared p := (discipline threads G).Shared p ∧ Near r p.1
  Local := (discipline threads G).Local
  Apart _ _ := True
  Owes ids _ l := G.adjacency.Walk ids.1 r l.source ∧ ids.2 ∈ l.pending ∧
    ∀ label, l.label? = some label → label ≤ ids.1
  Paid ids p := G.adjacency.Walk ids.1 (r + 1) ids.2 → (p.1.vtable ids.2).id ≤ ids.1

/-- One step of a push passes the id on, or still has it ahead. -/
theorem near_settle_step {r : Nat} {p p' : Shared G × Bitmap threads} {l l' : Push G}
    {u w : G.Vertex} (h : Acts p l p' l') (hl : l.Current p.1) (hnear : Near r p.1)
    (howes : (nearDiscipline threads G r).Owes (u, w) p l) :
    (nearDiscipline threads G r).Owes (u, w) p' l' ∨
    (nearDiscipline threads G r).Paid (u, w) p' := by
  obtain ⟨hwalk, hpending, hlabel⟩ := howes
  by_cases hstill : w ∈ l'.pending
  · refine .inl ⟨h.source_eq.symm ▸ hwalk, hstill, fun label hl' => ?_⟩
    rcases h.label_eq hl' with hold | rfl
    · exact hlabel label hold
    · exact hnear r (Nat.le_refl r) u l.source hwalk
  · refine .inr fun _ => ?_
    cases h with
    | @settled s b v my_id x current rest hle =>
        obtain rfl : w = x := (List.mem_cons.1 hpending).resolve_right hstill
        exact Nat.le_trans hle (hlabel my_id rfl)
    | @won s b v my_id x rest =>
        obtain rfl : w = x := (List.mem_cons.1 hpending).resolve_right hstill
        rw [store_vtable, if_pos rfl]
        exact hlabel my_id rfl
    | _ => exact absurd hpending hstill

theorem nearDiscipline_sound (r : Nat) :
    (nearDiscipline threads G r).Sound (kernel threads G).Act where
  symm _ _ _ := trivial
  apart _ _ _ _ _ _ _ _ _ _ := trivial
  own p l p' l' hact hp hl := by
    obtain ⟨hshared, hlocal⟩ := own_step (acts_of_act hact) hp.1 hl
    exact ⟨⟨hshared, hp.2.of_id_le ((acts_of_act hact).id_le hl.2.2)⟩, hlocal⟩
  stable p l p' l' m hact hp hl hapart hm :=
    discipline_sound.stable p l p' l' m hact hp.1 hl hapart hm
  settle p l p' l' ids hact hp hl hd := by
    rcases hd with howes | hpaid
    · exact near_settle_step (acts_of_act hact) hl.2.2 hp.2 howes
    · exact .inr fun hwalk => Nat.le_trans ((acts_of_act hact).id_le hl.2.2 ids.2) (hpaid hwalk)
  keep _ _ _ _ _ _ _ _ _ _ _ howes := .inl howes

/-- Entering a round: what is at most `r` arcs away is passed on by the pushes of the active
    vertices, and by the others it has been. -/
theorem near_enter {r : Nat} {s : Shared G} {frontier next_frontier : Bitmap threads}
    (h : AtHead s frontier next_frontier) (hnear : Near r s) :
    (nearDiscipline threads G r).Holds (s, next_frontier) ((kernel threads G).tasks frontier) := by
  have hholds :
      (discipline threads G).Holds (s, next_frontier) ((kernel threads G).tasks frontier) :=
    (enter_kept h).2
  refine ⟨⟨hholds.shared, hnear⟩, hholds.tasks, List.pairwise_of_forall fun _ _ => trivial, ?_⟩
  rintro ⟨u, w⟩
  by_cases hwalk : G.adjacency.Walk u (r + 1) w
  · cases hwalk with
    | @snoc _ v _ hv harc =>
        rcases h.arcs v w harc with hle | hactive
        · exact .inr fun _ => Nat.le_trans hle (hnear r (Nat.le_refl r) u v hv)
        · refine .inl ⟨.start v (G.out v),
            PushKernel.mem_tasks.2 ⟨v, hactive, List.ne_nil_of_mem harc, rfl⟩, hv, harc,
            fun label hlabel => ?_⟩
          cases hlabel
  · exact .inr fun h => absurd h hwalk

/-- A push that has returned owes nothing. -/
theorem not_owes_of_returned {r : Nat} {p : Shared G × Bitmap threads} {l : Push G}
    {ids : G.Vertex × G.Vertex} (hret : l.returned = true) :
    ¬ (nearDiscipline threads G r).Owes ids p l := by
  rintro ⟨-, hpending, -⟩
  cases l with
  | load v my_id edges =>
      cases edges with
      | nil => exact absurd hpending List.not_mem_nil
      | cons w rest => cases hret
  | _ => cases hret

/-- Leaving a round: the ids have come one arc further. -/
theorem near_leave {r : Nat} {p : Shared G × Bitmap threads} {pool : List (Push G)}
    (h : (nearDiscipline threads G r).Holds p pool) (hall : ∀ l ∈ pool, l.returned = true) :
    Near (r + 1) p.1 := by
  intro k hk u v hwalk
  rcases Nat.lt_succ_iff_lt_or_eq.1 (Nat.lt_succ_of_le hk) with hlt | rfl
  · exact h.shared.2 k (Nat.lt_succ_iff.1 hlt) u v hwalk
  · rcases h.covered (u, v) with ⟨l, hl, howes⟩ | hpaid
    · exact absurd howes (not_owes_of_returned (hall l hl))
    · exact hpaid hwalk

variable {D : Nat}

/-- With every label least, no label falls. -/
theorem not_lt_of_near {r : Nat} {s s' : Shared G} (hD : ∀ u v d, G.adjacency.Level u d v → d ≤ D)
    (hr : D ≤ r) (hnear : Near r s) {v : G.Vertex} (hcarried : Carried G (s'.vtable v).id v) :
    ¬ (s'.vtable v).id < (s.vtable v).id := by
  obtain ⟨u, hu, n, hwalk⟩ := hcarried
  obtain ⟨d, -, hlevel⟩ := Multigraph.exists_level_le hwalk
  have hle := hnear d (Nat.le_trans (hD u v d hlevel) hr) u v hlevel.1
  rw [hu] at hle
  exact Nat.not_lt.2 hle

/-- The loop invariant, with one arc for each call; the call after the `D`-th makes nobody due. -/
def roundInvariant (threads : Nat) (G : Graph) (D : Nat) (frontiers : List (Bitmap threads)) :
    PushKernel.LoopInvariant threads (Shared G) (Push G) where
  Head s frontier next_frontier := AtHead s frontier next_frontier ∧ Near frontiers.length s ∧
    frontiers.length ≤ D + 1 ∧ (D < frontiers.length → ∀ v : G.Vertex, ¬ frontier.Active v)
  Running frontier p pool := (loopInvariant threads G).Running frontier p pool ∧
    ∃ r, frontiers.length = r + 1 ∧ r ≤ D ∧ (nearDiscipline threads G r).Holds p pool ∧
      (D ≤ r → ∀ v, ¬ Due p pool v)

theorem roundInvariant_kept (hD : ∀ u v d, G.adjacency.Level u d v → d ≤ D) :
    PushKernel.KeptAlong (kernel threads G) (roundInvariant threads G D) where
  enter frontiers shared frontier next_frontier h hfull := by
    obtain ⟨hhead, hnear, -, hquiet⟩ := h
    refine ⟨enter_kept hhead, frontiers.length, by simp, ?_, near_enter hhead hnear, ?_⟩
    · by_contra hlate
      obtain ⟨v, hactive⟩ := hhead.fits.isEmpty_eq_false_iff.1 hfull
      exact hquiet (Nat.not_le.1 hlate) v hactive
    · exact fun _ => not_due_tasks hhead.next_empty
  push frontiers frontier p pool p' pool' h hpool := by
    obtain ⟨hrunning, r, hlength, hr, hholds, hquiet⟩ := h
    have hholds' := (nearDiscipline_sound r).step hpool hholds
    refine ⟨loopInvariant_kept.push _ _ _ _ _ hrunning hpool, r, hlength, hr, hholds',
      fun hlate v hdue => ?_⟩
    rcases due_or_lt hpool hrunning.2 hdue with hold | hlt
    · exact hquiet hlate v hold
    · exact not_lt_of_near hD hlate hholds.shared.2 (hholds'.shared.1.2 v).1 hlt
  leave frontiers shared frontier next_frontier pool h hall := by
    obtain ⟨hrunning, r, hlength, hr, hholds, hquiet⟩ := h
    refine ⟨leave_kept hrunning hall, hlength ▸ near_leave hholds hall,
      by omega, fun hlate v hactive => ?_⟩
    exact hquiet (by omega) v (.inl hactive)

/-- If no distance is greater than `D`, then for every interleaving of the pushes connected
    components calls its driver `D + 1` times at most, and after `r` calls no label is greater than
    an id that is `r` arcs away or fewer. -/
theorem components_rounds_le (helpers : Nat) (G : Graph) (D : Nat)
    (hD : ∀ u v d, G.adjacency.Level u d v → d ≤ D) :
    ∀ s frontiers, (drives (system helpers G)).Reachable (s, frontiers) →
      frontiers.length ≤ D + 1 ∧
      (s.control = .head → ∀ u v : G.Vertex, ∀ d ≤ frontiers.length, G.adjacency.Level u d v →
        (s.shared.vtable v).id ≤ u) := by
  intro s frontiers hs
  have hat : (roundInvariant (helpers + 1) G D frontiers).At s := by
    refine (roundInvariant_kept hD).reachable (fun t ht => ?_) hs
    obtain ⟨spurious, rfl⟩ := ht
    refine ⟨atHead_initial helpers spurious, fun k hk u v hwalk => ?_, Nat.zero_le _,
      fun hlate => ?_⟩
    · obtain rfl := Nat.le_zero.1 hk
      obtain rfl := Multigraph.walk_zero_iff.1 hwalk
      exact Nat.le_refl _
    · exact absurd hlate (Nat.not_lt_zero D)
  obtain ⟨shared, frontier, next_frontier, control⟩ := s
  cases control with
  | head => exact ⟨hat.2.2.1, fun _ u v d hd hlevel => hat.2.1 d hd u v hlevel.1⟩
  | pushing pool =>
      obtain ⟨-, r, hlength, hr, -⟩ := hat
      exact ⟨hlength ▸ Nat.succ_le_succ hr, fun hhead => by cases hhead⟩
  | stopped => exact ⟨hat.1.2.2.1, fun hhead => by cases hhead⟩

/-- Two calls at most on a single edge. -/
theorem components_rounds_le_edge : ∃ s frontiers,
    (drives (system 1 Graph.edge)).Reachable (s, frontiers) ∧ s.control = .stopped ∧
    frontiers.length ≤ 2 := by
  have hD : ∀ u v d, Graph.edge.adjacency.Level u d v → d ≤ 1 := fun u v d hlevel =>
    Nat.lt_succ_iff.1 (Multigraph.level_lt_card hlevel)
  obtain ⟨s, hs, hstopped⟩ := exists_stopped 1 Graph.edge
  obtain ⟨frontiers, hrun⟩ := exists_drives hs
  exact ⟨s, frontiers, hrun, hstopped, (components_rounds_le 1 Graph.edge 1 hD s frontiers hrun).1⟩

end FamGraph.ConnectedComponents
