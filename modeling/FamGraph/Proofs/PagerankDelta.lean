/-
Module: FamGraph.Proofs.PagerankDelta
Layer: Proofs
Purpose: The residual invariant of delta PageRank. What a vertex has received, value and residual,
  is what its in-neighbours have sent; sending clears `delta`, and what is under way is carried by
  the running pushes. `vertex_map` moves a residual into the value and loads it up as the next
  `delta`, which leaves both sides alone.
Trusted boundary: none
Main exports: inflow, pushDiscipline, mapDiscipline, Balanced, reachable_invariant,
  pagerank_residual_invariant
-/
import FamGraph.Core.PagerankDelta
import FamGraph.Proofs.GraphKernel
import Mathlib.Tactic.Ring
import Mathlib.Tactic.LinearCombination
import Mathlib.Tactic.FieldSimp

namespace FamGraph.PagerankDelta

variable {threads : Nat} {G : Graph}

/-! ### The inflow of a vertex -/

/-- What the in-neighbours of `v` have sent it. -/
def inflow (vtable : Table G) (v : G.Vertex) : ℚ :=
  alpha * ∑ u, (G.adjacency.arcs u v : ℚ) *
    ((INIT_RESIDUAL + (vtable u).value - (vtable u).delta) / (G.out u).length)

/-- Changing the entry of one vertex changes the inflow along its arcs only. -/
theorem inflow_update (vtable : Table G) (v w : G.Vertex) (x : PagerankDeltaVertex) :
    inflow (Function.update vtable v x) w = inflow vtable w +
      alpha * (G.adjacency.arcs v w *
        ((x.value - x.delta - ((vtable v).value - (vtable v).delta)) / (G.out v).length)) := by
  have hterm : ∀ u, (G.adjacency.arcs u w : ℚ) *
      ((INIT_RESIDUAL + (Function.update vtable v x u).value -
        (Function.update vtable v x u).delta) / (G.out u).length) =
      (G.adjacency.arcs u w : ℚ) *
        ((INIT_RESIDUAL + (vtable u).value - (vtable u).delta) / (G.out u).length) +
      if u = v then (G.adjacency.arcs v w : ℚ) *
        ((x.value - x.delta - ((vtable v).value - (vtable v).delta)) / (G.out v).length)
        else 0 := by
    intro u
    by_cases huv : u = v
    · subst huv
      rw [if_pos rfl, Function.update_self]
      ring
    · rw [if_neg huv, Function.update_of_ne huv, add_zero]
  unfold inflow
  rw [Finset.sum_congr rfl fun u _ => hterm u, Finset.sum_add_distrib, mul_add]
  simp

/-- Without a change of `value - delta` the inflow stays. -/
theorem inflow_update_of_eq {vtable : Table G} {v : G.Vertex} {x : PagerankDeltaVertex}
    (h : x.value - x.delta = (vtable v).value - (vtable v).delta) (w : G.Vertex) :
    inflow (Function.update vtable v x) w = inflow vtable w := by
  rw [inflow_update, h]
  simp

/-- A vertex without arcs sends nothing. -/
theorem inflow_update_of_nil {vtable : Table G} {v : G.Vertex} (x : PagerankDeltaVertex)
    (h : G.out v = []) (w : G.Vertex) :
    inflow (Function.update vtable v x) w = inflow vtable w := by
  have harcs : G.adjacency.arcs v w = 0 := by
    have hout : G.adjacency.out v = [] := h
    simp [Multigraph.arcs, hout]
  rw [inflow_update, harcs]
  simp

/-! ### The pushes -/

/-- The atomic steps of `pagerank_push`, one constructor for each outcome. -/
inductive PushActs : Table G → Push G → Table G → Push G → Prop where
  | start {vtable v edges} : edges ≠ [] →
      PushActs vtable (.start v edges) vtable (.clear v (vtable v).delta edges)
  | skip {vtable v} : PushActs vtable (.start v []) vtable (.load v 0 [])
  | clear {vtable v my_delta edges} :
      PushActs vtable (.clear v my_delta edges)
        (Function.update vtable v { vtable v with delta := 0 })
        (.load v (my_delta * alpha / edges.length) edges)
  | load {vtable v my_val w rest} :
      PushActs vtable (.load v my_val (w :: rest)) vtable
        (.exchange v my_val w (vtable w).residual rest)
  | added {vtable v my_val w rest} :
      PushActs vtable (.exchange v my_val w (vtable w).residual rest)
        (Function.update vtable w { vtable w with residual := (vtable w).residual + my_val })
        (.load v my_val rest)
  | retry {vtable v my_val w current rest} :
      PushActs vtable (.exchange v my_val w current rest) vtable
        (.exchange v my_val w (vtable w).residual rest)

/-- `pushStep` takes no other step. -/
theorem pushActs_of_act {vtable vtable' : Table G} {l l' : Push G}
    (h : PushAct vtable l vtable' l') :
    PushActs vtable l vtable' l' := by
  obtain ⟨spurious, h⟩ := h
  cases l with
  | start v edges =>
      cases edges with
      | nil =>
          simp only [pushStep, List.length_nil, gt_iff_lt, Nat.lt_irrefl, if_false,
            Option.some.injEq, Prod.mk.injEq] at h
          obtain ⟨rfl, rfl⟩ := h
          exact .skip
      | cons w rest =>
          simp only [pushStep, List.length_cons, gt_iff_lt, Nat.zero_lt_succ, if_true,
            Option.some.injEq, Prod.mk.injEq] at h
          obtain ⟨rfl, rfl⟩ := h
          exact .start (List.cons_ne_nil w rest)
  | clear v my_delta edges =>
      simp only [pushStep, Option.some.injEq, Prod.mk.injEq] at h
      obtain ⟨rfl, rfl⟩ := h
      exact .clear
  | load v my_val edges =>
      cases edges with
      | nil => simp [pushStep] at h
      | cons w rest =>
          simp only [pushStep, Option.some.injEq, Prod.mk.injEq] at h
          obtain ⟨rfl, rfl⟩ := h
          exact .load
  | exchange v my_val w current rest =>
      by_cases hok : (vtable w).residual = current ∧ spurious = false
      · simp only [pushStep, if_pos hok, Option.some.injEq, Prod.mk.injEq] at h
        obtain ⟨rfl, rfl⟩ := h
        obtain ⟨rfl, -⟩ := hok
        exact .added
      · simp only [pushStep, if_neg hok, Option.some.injEq, Prod.mk.injEq] at h
        obtain ⟨rfl, rfl⟩ := h
        exact .retry

/-- The vertex a push works for. -/
def Push.source : Push G → G.Vertex
  | .start v _ => v
  | .clear v _ _ => v
  | .load v _ _ => v
  | .exchange v _ _ _ _ => v

/-- The push has not cleared the `delta` it spreads. -/
def Push.loaded : Push G → Bool
  | .start _ _ => true
  | .clear _ _ _ => true
  | _ => false

/-- What a push still carries to `w`. -/
def Push.carries (w : G.Vertex) : Push G → ℚ
  | .load _ my_val edges => my_val * edges.count w
  | .exchange _ my_val x _ rest => my_val * (x :: rest).count w
  | _ => 0

/-- What a push knows before it clears `delta`. -/
def Push.Knows (vtable : Table G) : Push G → Prop
  | .start v edges => edges = G.out v
  | .clear v my_delta edges => edges = G.out v ∧ my_delta = (vtable v).delta
  | _ => True

/-- The argument for the first phase. Obligation `v`: a vertex with out-edges gets its `delta`
    cleared. -/
def pushDiscipline (G : Graph) : TaskPool.Discipline (Table G) (Push G) G.Vertex where
  Shared _ := True
  Local vtable l := l.Knows vtable
  Apart l m := l.source ≠ m.source
  Owes v _ l := l.source = v ∧ l.loaded = true
  Paid v vtable := G.out v ≠ [] → (vtable v).delta = 0

variable {vtable vtable' : Table G} {l l' m : Push G}

theorem PushActs.source_eq (h : PushActs vtable l vtable' l') : l'.source = l.source := by
  cases h <;> rfl

/-- A `delta` is left alone by the pushes for other vertices, and only ever cleared. -/
theorem PushActs.delta_eq (h : PushActs vtable l vtable' l') (v : G.Vertex) :
    (vtable' v).delta = (vtable v).delta ∨ v = l.source ∧ (vtable' v).delta = 0 := by
  cases h with
  | @clear v' my_delta edges =>
      by_cases hv : v = v'
      · subst hv
        exact Or.inr ⟨rfl, by simp⟩
      · exact Or.inl (by simp [hv])
  | @added v' my_val w rest =>
      by_cases hv : v = w
      · subst hv
        exact Or.inl (by simp)
      · exact Or.inl (by simp [hv])
  | _ => exact Or.inl rfl

/-- A push starts by taking `delta` and clearing it. -/
theorem PushActs.loaded_or (h : PushActs vtable l vtable' l') (hl : l.Knows vtable)
    (hloaded : l.loaded = true) :
    l'.loaded = true ∨ (G.out l.source ≠ [] → (vtable' l.source).delta = 0) := by
  cases h with
  | start hne => exact Or.inl rfl
  | skip =>
      have hnil : [] = G.out _ := hl
      exact Or.inr fun hne => absurd hnil.symm hne
  | clear => exact Or.inr fun _ => by simp [Push.source]
  | _ => cases hloaded

/-- The discipline is sound for `pagerank_push`. -/
theorem pushDiscipline_sound : (pushDiscipline G).Sound PushAct where
  symm _ _ h heq := h heq.symm
  apart _ _ _ _ _ hact _ _ _ hapart heq :=
    hapart ((pushActs_of_act hact).source_eq.symm.trans heq)
  own _ _ _ _ hact _ hl := by
    refine ⟨trivial, ?_⟩
    cases pushActs_of_act hact with
    | start hne => exact ⟨hl, rfl⟩
    | _ => trivial
  stable _ l _ _ m hact _ _ hapart hm := by
    cases m with
    | clear v my_delta edges =>
        refine ⟨hm.1, ?_⟩
        rcases (pushActs_of_act hact).delta_eq v with heq | ⟨hsource, -⟩
        · rw [heq]
          exact hm.2
        · exact absurd hsource.symm hapart
    | _ => exact hm
  settle _ l _ _ v hact _ hl hd := by
    have hacts := pushActs_of_act hact
    rcases hd with ⟨rfl, hloaded⟩ | hpaid
    · rcases hacts.loaded_or hl hloaded with hstill | hzero
      · exact Or.inl ⟨hacts.source_eq, hstill⟩
      · exact Or.inr hzero
    · refine Or.inr fun hne => ?_
      rcases hacts.delta_eq v with heq | ⟨-, hzero⟩
      · rw [heq]
        exact hpaid hne
      · exact hzero
  keep _ _ _ _ _ _ _ _ _ _ _ howes := Or.inl howes

/-- What a vertex has received, and what is under way to it, was sent by its in-neighbours. -/
def Balanced (vtable : Table G) (pool : List (Push G)) : Prop :=
  ∀ v, (vtable v).value + (vtable v).residual + (pool.map (Push.carries v)).sum = inflow vtable v

/-- A step keeps what a vertex has received and what the push carries to it in step with the
    inflow. -/
theorem PushActs.balance (h : PushActs vtable l vtable' l') (hl : l.Knows vtable) (v : G.Vertex) :
    (vtable' v).value + (vtable' v).residual + l'.carries v + inflow vtable v =
      (vtable v).value + (vtable v).residual + l.carries v + inflow vtable' v := by
  cases h with
  | @clear u my_delta edges =>
      obtain ⟨rfl, rfl⟩ := hl
      have hsame : (Function.update vtable u { vtable u with delta := 0 } v).value +
          (Function.update vtable u { vtable u with delta := 0 } v).residual =
          (vtable v).value + (vtable v).residual := by
        by_cases hv : v = u
        · subst hv
          simp
        · simp [hv]
      have harcs : G.adjacency.arcs u v = (G.out u).count v := rfl
      rw [inflow_update, hsame, harcs]
      simp only [Push.carries]
      ring
  | @added u my_val w rest =>
      rw [inflow_update_of_eq (by rfl)]
      by_cases hv : v = w
      · subst hv
        simp only [Function.update_self, Push.carries, List.count_cons_self, Nat.cast_add,
          Nat.cast_one]
        ring
      · have hwv : w ≠ v := fun heq => hv heq.symm
        simp only [Function.update_of_ne hv, Push.carries, List.count_cons_of_ne hwv]
  | skip =>
      simp [Push.carries]
  | _ => rfl

/-- A step keeps the balance. -/
theorem Balanced.step {pool pool' : List (Push G)} (hholds : (pushDiscipline G).Holds vtable pool)
    (hstep : TaskPool.Step PushAct (vtable, pool) (vtable', pool')) (h : Balanced vtable pool) :
    Balanced vtable' pool' := by
  intro v
  obtain ⟨l, hl, l', hact, hsum⟩ := hstep.sum_map (Push.carries v)
  have hbalance := (pushActs_of_act hact).balance (hholds.tasks l hl) v
  have hv := h v
  linear_combination hbalance + hv + hsum

/-! ### The vertex maps -/

/-- The steps of the second parallel loop, one constructor for each outcome. -/
inductive MapActs :
    Table G × Bitmap threads → VertexMap G → Table G × Bitmap threads → VertexMap G → Prop where
  | loaded {vtable b v} : |(vtable v).residual| > epsilon →
      MapActs (vtable, b) (.map v)
        (Function.update vtable v
          { value := (vtable v).value + (vtable v).residual
            delta := (vtable v).residual
            residual := 0 }, b)
        (.activate v)
  | kept {vtable b v} : |(vtable v).residual| ≤ epsilon →
      MapActs (vtable, b) (.map v) (vtable, b) .finished
  | activate {vtable b v} (t : Fin threads) :
      MapActs (vtable, b) (.activate v) (vtable, (b.setBit t v).1) .finished

/-- `mapStep` takes no other step. -/
theorem mapActs_of_act {p p' : Table G × Bitmap threads} {l l' : VertexMap G}
    (h : MapAct p l p' l') :
    MapActs p l p' l' := by
  obtain ⟨t, h⟩ := h
  obtain ⟨vtable, b⟩ := p
  cases l with
  | map v =>
      by_cases hres : |(vtable v).residual| > epsilon
      · simp only [mapStep, PagerankDeltaVertex.vertexMap, if_pos hres, Option.some.injEq,
          Prod.mk.injEq] at h
        obtain ⟨rfl, rfl⟩ := h
        exact .loaded hres
      · simp only [mapStep, PagerankDeltaVertex.vertexMap, if_neg hres, Option.some.injEq,
          Prod.mk.injEq, Function.update_eq_self] at h
        obtain ⟨rfl, rfl⟩ := h
        exact .kept (le_of_not_gt hres)
  | activate v =>
      simp only [mapStep, Option.some.injEq, Prod.mk.injEq] at h
      obtain ⟨rfl, rfl⟩ := h
      exact .activate t
  | finished => simp [mapStep] at h

/-- What the second phase still has to do for a vertex. -/
inductive Debt (G : Graph) where
  | small (v : G.Vertex)
  | active (v : G.Vertex)

/-- The shared part of the argument for the second phase. -/
structure Mapping (p : Table G × Bitmap threads) : Prop where
  fits : p.2.Fits G
  balanced : ∀ v, (p.1 v).value + (p.1 v).residual = inflow p.1 v
  cleared : ∀ v, |(p.1 v).residual| > epsilon → G.out v ≠ [] → (p.1 v).delta = 0

/-- The argument for the second phase: every residual becomes small, and every vertex that keeps a
    `delta` is activated. -/
def mapDiscipline (threads : Nat) (G : Graph) :
    TaskPool.Discipline (Table G × Bitmap threads) (VertexMap G) (Debt G) where
  Shared := Mapping
  Local _ _ := True
  Apart _ _ := True
  Owes
    | .small v, _, l => l = .map v
    | .active v, _, l => l = .activate v
  Paid
    | .small v, p => |(p.1 v).residual| ≤ epsilon
    | .active v, p => G.out v ≠ [] → (p.1 v).delta ≠ 0 → p.2.Active v

theorem epsilon_nonneg : 0 ≤ epsilon := by
  norm_num [epsilon]

/-- Moving a residual into the value and loading it up keeps the inflow. -/
theorem Mapping.load {b : Bitmap threads} (h : Mapping (vtable, b)) {v : G.Vertex}
    (hres : |(vtable v).residual| > epsilon) :
    Mapping (Function.update vtable v
      { value := (vtable v).value + (vtable v).residual
        delta := (vtable v).residual
        residual := 0 }, b) := by
  refine ⟨h.fits, fun w => ?_, fun w hw hne => ?_⟩
  · have hinflow : inflow (Function.update vtable v
        { value := (vtable v).value + (vtable v).residual
          delta := (vtable v).residual
          residual := 0 }) w = inflow vtable w := by
      by_cases hnil : G.out v = []
      · exact inflow_update_of_nil _ hnil w
      · have hzero : (vtable v).delta = 0 := h.cleared v hres hnil
        refine inflow_update_of_eq ?_ w
        rw [hzero]
        ring
    rw [hinflow, ← h.balanced w]
    by_cases hwv : w = v
    · subst hwv
      simp
    · simp [hwv]
  · by_cases hwv : w = v
    · subst hwv
      simp only [Function.update_self, abs_zero] at hw
      exact absurd epsilon_nonneg (not_le_of_gt hw)
    · simp only [Function.update_of_ne hwv] at hw ⊢
      exact h.cleared w hw hne

/-- One step of the second phase settles what its task owed. -/
theorem map_settle {p p' : Table G × Bitmap threads} {l l' : VertexMap G} (debt : Debt G)
    (h : MapActs p l p' l')
    (hd : (mapDiscipline threads G).Owes debt p l ∨ (mapDiscipline threads G).Paid debt p) :
    (mapDiscipline threads G).Owes debt p' l' ∨ (mapDiscipline threads G).Paid debt p' := by
  cases h with
  | @loaded vtable b v hres =>
      cases debt with
      | small w =>
          refine Or.inr ?_
          by_cases hwv : w = v
          · subst hwv
            simpa [mapDiscipline] using epsilon_nonneg
          · rcases hd with howes | hpaid
            · exact absurd (VertexMap.map.inj howes).symm hwv
            · simpa [mapDiscipline, hwv] using hpaid
      | active w =>
          by_cases hwv : w = v
          · subst hwv
            exact Or.inl rfl
          · rcases hd with howes | hpaid
            · cases howes
            · refine Or.inr ?_
              simpa [mapDiscipline, hwv] using hpaid
  | @kept vtable b v hres =>
      cases debt with
      | small w =>
          refine Or.inr ?_
          rcases hd with howes | hpaid
          · obtain rfl := VertexMap.map.inj howes
            exact hres
          · exact hpaid
      | active w => exact Or.inr (hd.resolve_left fun howes => nomatch howes)
  | @activate vtable b v t =>
      cases debt with
      | small w => exact Or.inr (hd.resolve_left fun howes => nomatch howes)
      | active w =>
          refine Or.inr fun hne hdelta => (Bitmap.active_setBit b t v w).2 ?_
          rcases hd with howes | hpaid
          · obtain rfl := VertexMap.activate.inj howes
            exact Or.inl rfl
          · exact Or.inr (hpaid hne hdelta)

/-- The discipline is sound for the second phase. -/
theorem mapDiscipline_sound : (mapDiscipline threads G).Sound MapAct where
  symm _ _ _ := trivial
  apart _ _ _ _ _ _ _ _ _ _ := trivial
  own _ _ _ _ hact hp _ := by
    refine ⟨?_, trivial⟩
    cases mapActs_of_act hact with
    | loaded hres => exact Mapping.load hp hres
    | kept hres => exact hp
    | @activate vtable b v t => exact ⟨hp.fits.setBit t v, hp.balanced, hp.cleared⟩
  stable _ _ _ _ _ _ _ _ _ _ := trivial
  settle _ _ _ _ debt hact _ _ hd := map_settle debt (mapActs_of_act hact) hd
  keep _ _ _ _ _ debt _ _ _ _ _ howes := by
    cases debt with
    | small v => exact Or.inl howes
    | active v => exact Or.inl howes

/-! ### The loop -/

/-- The residual invariant at the loop head. -/
structure AtHead (s : RankState threads G) : Prop where
  fits : s.frontier.Fits G
  next_fits : s.next_frontier.Fits G
  balanced : ∀ v, (s.vtable v).value + (s.vtable v).residual = inflow s.vtable v
  small : ∀ v, |(s.vtable v).residual| ≤ epsilon
  active : ∀ v, G.out v ≠ [] → (s.vtable v).delta ≠ 0 → s.frontier.Active v

/-- The invariant of `operator()`. -/
def Invariant (s : RankState threads G) : Prop :=
  match s.control with
  | .pushing pool => s.frontier.Fits G ∧ s.next_frontier.Fits G ∧
      (pushDiscipline G).Holds s.vtable pool ∧ Balanced s.vtable pool
  | .mapping pool => s.frontier.Fits G ∧
      (mapDiscipline threads G).Holds (s.vtable, s.next_frontier) pool
  | _ => AtHead s

/-- Entering an iteration: whatever has a `delta` to send is in the frontier. -/
theorem AtHead.enter {s : RankState threads G} (h : AtHead s) :
    (pushDiscipline G).Holds s.vtable (pushes s.frontier) ∧
      Balanced s.vtable (pushes s.frontier) := by
  have hpushes : ∀ l ∈ pushes s.frontier, ∃ v, l = .start v (G.out v) := by
    intro l hl
    obtain ⟨v, -, rfl⟩ := List.mem_map.1 hl
    exact ⟨v, rfl⟩
  refine ⟨⟨trivial, ?_, ?_, fun v => ?_⟩, fun v => ?_⟩
  · intro l hl
    obtain ⟨v, rfl⟩ := hpushes l hl
    rfl
  · exact List.pairwise_map.2 (G.nodup_calls _)
  · by_cases hcall : s.frontier.Active v ∧ G.out v ≠ []
    · refine Or.inl ⟨.start v (G.out v), List.mem_map_of_mem (Graph.mem_calls.2 ?_), rfl, rfl⟩
      exact ⟨decide_eq_true hcall.1, hcall.2⟩
    · refine Or.inr fun hne => ?_
      by_contra hdelta
      exact hcall ⟨h.active v hne hdelta, hne⟩
  · have hzero : ((pushes s.frontier).map (Push.carries v)).sum = 0 := by
      refine List.sum_eq_zero fun x hx => ?_
      obtain ⟨l, hl, rfl⟩ := List.mem_map.1 hx
      obtain ⟨u, rfl⟩ := hpushes l hl
      rfl
    rw [hzero, add_zero]
    exact h.balanced v

/-- Between the phases: nothing is under way, and every `delta` that could be sent is cleared. -/
theorem mapping_of_pushed {b : Bitmap threads} {pool : List (Push G)} (hfits : b.Fits G)
    (hholds : (pushDiscipline G).Holds vtable pool) (hbalanced : Balanced vtable pool)
    (hall : ∀ l ∈ pool, l.returned = true) :
    (mapDiscipline threads G).Holds (vtable, b) (maps G) := by
  have hdone : ∀ l ∈ pool, ∃ v my_val, l = .load v my_val [] := by
    intro l hl
    have hret := hall l hl
    cases l with
    | load v my_val edges =>
        cases edges with
        | nil => exact ⟨v, my_val, rfl⟩
        | cons w rest => cases hret
    | _ => cases hret
  have hcleared : ∀ v, G.out v ≠ [] → (vtable v).delta = 0 := by
    intro v hne
    rcases hholds.covered v with ⟨l, hl, -, hloaded⟩ | hpaid
    · obtain ⟨u, my_val, rfl⟩ := hdone l hl
      cases hloaded
    · exact hpaid hne
  refine ⟨⟨hfits, fun v => ?_, fun v _ => hcleared v⟩, fun _ _ => trivial,
    List.pairwise_of_forall fun _ _ => trivial, fun debt => ?_⟩
  · have hzero : (pool.map (Push.carries v)).sum = 0 := by
      refine List.sum_eq_zero fun x hx => ?_
      obtain ⟨l, hl, rfl⟩ := List.mem_map.1 hx
      obtain ⟨u, my_val, rfl⟩ := hdone l hl
      simp [Push.carries]
    have hv := hbalanced v
    rw [hzero, add_zero] at hv
    exact hv
  · cases debt with
    | small v => exact Or.inl ⟨.map v, List.mem_map_of_mem (List.mem_finRange v), rfl⟩
    | active v => exact Or.inr fun hne hdelta => absurd (hcleared v hne) hdelta

/-- Closing an iteration: the residuals are small and the next frontier is complete. -/
theorem atHead_of_mapped {frontier next_frontier : Bitmap threads} {iter : Nat}
    {pool : List (VertexMap G)} (hfits : frontier.Fits G)
    (hholds : (mapDiscipline threads G).Holds (vtable, next_frontier) pool)
    (hall : ∀ l ∈ pool, l.done = true) :
    AtHead (⟨vtable, next_frontier, frontier.clear, iter, .head⟩ : RankState threads G) := by
  refine ⟨hholds.shared.fits, hfits.clear, hholds.shared.balanced, fun v => ?_, fun v => ?_⟩
  · rcases hholds.covered (.small v) with ⟨l, hl, rfl⟩ | hpaid
    · cases hall _ hl
    · exact hpaid
  · rcases hholds.covered (.active v) with ⟨l, hl, rfl⟩ | hpaid
    · cases hall _ hl
    · exact hpaid

/-- One step of `operator()` keeps the invariant. -/
theorem invariant_step {max_iterations : Nat} {s t : RankState threads G} (hs : Invariant s)
    (hst : Step max_iterations s t) : Invariant t := by
  cases hst with
  | enter hfull hiter =>
      obtain ⟨hholds, hbalanced⟩ := AtHead.enter hs
      exact ⟨hs.fits, hs.next_fits, hholds, hbalanced⟩
  | push hstep =>
      obtain ⟨hfits, hnext, hholds, hbalanced⟩ := hs
      exact ⟨hfits, hnext, pushDiscipline_sound.step hstep hholds, hbalanced.step hholds hstep⟩
  | pushed hall =>
      obtain ⟨hfits, hnext, hholds, hbalanced⟩ := hs
      exact ⟨hfits, mapping_of_pushed hnext hholds hbalanced hall⟩
  | map hstep => exact ⟨hs.1, mapDiscipline_sound.step hstep hs.2⟩
  | mapped hall => exact atHead_of_mapped hs.1 hs.2 hall
  | stopEmpty hempty => exact ⟨hs.fits, hs.next_fits, hs.balanced, hs.small, hs.active⟩
  | stopBound hfull hiter => exact ⟨hs.fits, hs.next_fits, hs.balanced, hs.small, hs.active⟩

/-- `operator()` reaches the loop with nothing sent and everything loaded. -/
theorem atHead_initial (helpers : Nat) (G : Graph) : AtHead (initial helpers G) where
  fits := ⟨rfl, Bitmap.counted_setAll 0 fun _ => rfl⟩
  next_fits := .fresh G
  balanced v := by simp [initial, inflow]
  small v := by simpa [initial] using epsilon_nonneg
  active v _ _ := Bitmap.active_setAll 0 v.isLt

/-- The invariant holds throughout every run. -/
theorem reachable_invariant {helpers max_iterations : Nat} {s : RankState (helpers + 1) G}
    (h : (system helpers G max_iterations).Reachable s) : Invariant s := by
  refine TransitionSystem.Reachable.induct (I := Invariant) ?_ ?_ h
  · rintro s rfl
    exact atHead_initial helpers G
  · exact fun s t _ hs hst => invariant_step hs hst

/-- For every interleaving and every number of iterations, at each loop head: what a vertex has
    received is `alpha` times what its in-neighbours have sent, every residual is at most `epsilon`,
    and a vertex with out-edges and something to send is in the frontier. When the frontier has run
    empty, `INIT_RESIDUAL + value` solves the PageRank equation up to `epsilon`. -/
theorem pagerank_residual_invariant (helpers : Nat) (G : Graph) (max_iterations : Nat) :
    (∀ s, (system helpers G max_iterations).Reachable s → s.control = .head → ∀ v,
      (s.vtable v).value + (s.vtable v).residual =
          alpha * ∑ u, (G.adjacency.arcs u v : ℚ) *
            ((INIT_RESIDUAL + (s.vtable u).value - (s.vtable u).delta) / (G.out u).length) ∧
        |(s.vtable v).residual| ≤ epsilon ∧
        (0 < (G.out v).length → (s.vtable v).delta ≠ 0 → s.frontier.Active v)) ∧
      ∀ s, (system helpers G max_iterations).Reachable s → s.control = .stopped →
        s.frontier.isEmpty = true → ∀ v,
          |INIT_RESIDUAL + (s.vtable v).value -
            (INIT_RESIDUAL + alpha * ∑ u, (G.adjacency.arcs u v : ℚ) *
              ((INIT_RESIDUAL + (s.vtable u).value) / (G.out u).length))| ≤ epsilon := by
  constructor
  · rintro ⟨vtable, frontier, next_frontier, iter, control⟩ hs rfl v
    have h : AtHead _ := reachable_invariant hs
    exact ⟨h.balanced v, h.small v, fun hpos => h.active v (List.ne_nil_of_length_pos hpos)⟩
  · rintro ⟨vtable, frontier, next_frontier, iter, control⟩ hs rfl hempty v
    have h : AtHead _ := reachable_invariant hs
    have hsent : ∑ u, (G.adjacency.arcs u v : ℚ) *
        ((INIT_RESIDUAL + (vtable u).value) / (G.out u).length) =
        ∑ u, (G.adjacency.arcs u v : ℚ) *
          ((INIT_RESIDUAL + (vtable u).value - (vtable u).delta) / (G.out u).length) := by
      refine Finset.sum_congr rfl fun u _ => ?_
      by_cases hnil : G.out u = []
      · simp [hnil]
      · have hzero : (vtable u).delta = 0 := by
          by_contra hdelta
          exact h.fits.isEmpty_iff.1 hempty u (h.active u hnil hdelta)
        rw [hzero, sub_zero]
    have hbalanced : (vtable v).value + (vtable v).residual = alpha * _ := h.balanced v
    have hdiff : INIT_RESIDUAL + (vtable v).value - (INIT_RESIDUAL + alpha * ∑ u,
        (G.adjacency.arcs u v : ℚ) * ((INIT_RESIDUAL + (vtable u).value) / (G.out u).length)) =
        -(vtable v).residual := by
      rw [hsent]
      linear_combination hbalanced
    change |INIT_RESIDUAL + (vtable v).value - _| ≤ epsilon
    rw [hdiff, abs_neg]
    exact h.small v

end FamGraph.PagerankDelta
