/-
Module: FamGraph.Proofs.PagerankAccuracy
Layer: Proofs
Purpose: How close PageRank-delta comes to PageRank. The vertices hand on
  `INIT_RESIDUAL + value - delta`, and each iteration makes that the `INIT_RESIDUAL + value` of the
  iteration before, whatever the order of the pushes. So the ranks approach the solution of the
  PageRank equation from below and lose a factor `alpha` of their distance in each iteration, but
  for what stays behind in residuals of at most `epsilon`.
Trusted boundary: none
Main exports: flow, errorBound, Accurate, accurate_step, ranks_approach_pagerank
-/
import FamGraph.Foundation.DampedFlow
import FamGraph.Proofs.PagerankDelta
import Mathlib.Algebra.BigOperators.Field

namespace FamGraph.PagerankDelta

variable {threads : Nat} {G : Graph}

/-! ### The PageRank equation -/

theorem alpha_nonneg : 0 ≤ alpha := by norm_num [alpha]

theorem alpha_lt_one : alpha < 1 := by norm_num [alpha]

theorem INIT_RESIDUAL_nonneg : 0 ≤ INIT_RESIDUAL := by norm_num [INIT_RESIDUAL, alpha]

/-- Every vertex hands on what it has in equal parts to its out-edges. -/
def flow (G : Graph) : DampedFlow ℚ G.Vertex where
  share u v := (G.adjacency.arcs u v : ℚ) / (G.out u).length
  damping := alpha
  share_nonneg _ _ := div_nonneg (Nat.cast_nonneg _) (Nat.cast_nonneg _)
  share_sum_le u := by
    have hsum : ∑ v, (G.adjacency.arcs u v : ℚ) = (G.out u).length := by
      rw [← Nat.cast_sum, ← G.adjacency.length_out_eq_sum u]
    rw [← Finset.sum_div, hsum]
    exact div_self_le_one _
  damping_nonneg := alpha_nonneg
  damping_lt_one := alpha_lt_one

/-- The terms of the equation as the source writes them. -/
theorem flow_inflow (x : G.Vertex → ℚ) (v : G.Vertex) :
    (flow G).inflow x v = alpha * ∑ u, (G.adjacency.arcs u v : ℚ) * (x u / (G.out u).length) := by
  rw [DampedFlow.inflow]
  congr 1
  apply Finset.sum_congr rfl
  intro u _
  simp only [flow]
  ring

theorem out_ne_nil_of_mem_senders {u : G.Vertex} (h : u ∈ (flow G).senders) : G.out u ≠ [] := by
  intro hnil
  obtain ⟨v, hne⟩ := DampedFlow.exists_share_ne_zero h
  apply hne
  simp [flow, hnil]

/-- What a vertex has handed on so far. -/
def sent (vtable : Table G) (u : G.Vertex) : ℚ :=
  INIT_RESIDUAL + (vtable u).value - (vtable u).delta

/-- The rank of a vertex. -/
def rank (vtable : Table G) (u : G.Vertex) : ℚ := INIT_RESIDUAL + (vtable u).value

/-- The balance at the loop head, as an iterate with a residual. -/
theorem rank_add_residual {vtable : Table G}
    (h : ∀ v, (vtable v).value + (vtable v).residual = inflow vtable v) (v : G.Vertex) :
    rank vtable v + (vtable v).residual = INIT_RESIDUAL + (flow G).inflow (sent vtable) v := by
  rw [flow_inflow, rank, add_assoc, h v]
  rfl

/-- A sender with nothing left to send has handed on its rank. -/
theorem sent_eq_rank {vtable : Table G} {u : G.Vertex} (h : (vtable u).delta = 0) :
    sent vtable u = rank vtable u := by
  rw [sent, rank, h, sub_zero]

/-! ### Nothing is negative -/

/-- No field of the table is negative. -/
def NonNeg (vtable : Table G) : Prop :=
  ∀ v, 0 ≤ (vtable v).value ∧ 0 ≤ (vtable v).delta ∧ 0 ≤ (vtable v).residual

/-- Nor is what a push has read. -/
def Push.NonNeg : Push G → Prop
  | .start _ _ => True
  | .clear _ my_delta _ => 0 ≤ my_delta
  | .load _ my_val _ => 0 ≤ my_val
  | .exchange _ my_val _ _ _ => 0 ≤ my_val

theorem NonNeg.update {vtable : Table G} (h : NonNeg vtable) {v : G.Vertex}
    {x : PagerankDeltaVertex} (hx : 0 ≤ x.value ∧ 0 ≤ x.delta ∧ 0 ≤ x.residual) :
    NonNeg (Function.update vtable v x) := by
  intro w
  by_cases hw : w = v
  · subst hw
    rw [Function.update_self]
    exact hx
  · rw [Function.update_of_ne hw]
    exact h w

section Acts

variable {vtable vtable' : Table G} {l l' : Push G}

/-- A push keeps everything from becoming negative. -/
theorem PushActs.nonNeg (h : PushActs vtable l vtable' l') (hv : NonNeg vtable) (hl : l.NonNeg) :
    NonNeg vtable' ∧ l'.NonNeg := by
  cases h with
  | @start v edges _ => exact ⟨hv, (hv v).2.1⟩
  | skip => exact ⟨hv, le_refl 0⟩
  | @clear v my_delta edges =>
      exact ⟨hv.update ⟨(hv v).1, le_refl 0, (hv v).2.2⟩,
        div_nonneg (mul_nonneg hl alpha_nonneg) (Nat.cast_nonneg _)⟩
  | load => exact ⟨hv, hl⟩
  | @added v my_val w rest => exact ⟨hv.update ⟨(hv w).1, (hv w).2.1, add_nonneg (hv w).2.2 hl⟩, hl⟩
  | retry => exact ⟨hv, hl⟩

/-- A push changes no rank. -/
theorem PushActs.rank_eq (h : PushActs vtable l vtable' l') : rank vtable' = rank vtable := by
  have hupdate : ∀ {v : G.Vertex} {x : PagerankDeltaVertex}, x.value = (vtable v).value →
      rank (Function.update vtable v x) = rank vtable := by
    intro v x hx
    funext w
    by_cases hw : w = v
    · subst hw
      rw [rank, rank, Function.update_self, hx]
    · rw [rank, rank, Function.update_of_ne hw]
  cases h with
  | clear => exact hupdate rfl
  | added => exact hupdate rfl
  | _ => rfl

/-- The same for the pool. -/
theorem nonNeg_pushStep {pool pool' : List (Push G)}
    (hstep : TaskPool.Step PushAct (vtable, pool) (vtable', pool')) (hv : NonNeg vtable)
    (hpool : ∀ l ∈ pool, l.NonNeg) :
    NonNeg vtable' ∧ (∀ l ∈ pool', l.NonNeg) ∧ rank vtable' = rank vtable := by
  obtain ⟨before, l, l', after, rfl, rfl, hact⟩ := hstep.cases_on
  have hacts := pushActs_of_act hact
  obtain ⟨hv', hl'⟩ := hacts.nonNeg hv (hpool l (by simp))
  refine ⟨hv', fun m hm => ?_, hacts.rank_eq⟩
  cases List.mem_append.1 hm with
  | inl hbefore => exact hpool m (by simp [hbefore])
  | inr hm =>
      cases List.mem_cons.1 hm with
      | inl heq => exact heq ▸ hl'
      | inr hafter => exact hpool m (by simp [hafter])

end Acts

/-- Loading a residual up makes the vertex hand on no more than before. -/
theorem mapStep_kept {p p' : Table G × Bitmap threads} {pool pool' : List (VertexMap G)}
    (hstep : TaskPool.Step MapAct (p, pool) (p', pool')) (hmapping : Mapping p) (hv : NonNeg p.1) :
    NonNeg p'.1 ∧ ∀ u ∈ (flow G).senders, sent p'.1 u = sent p.1 u := by
  obtain ⟨before, l, l', after, rfl, rfl, hact⟩ := hstep.cases_on
  cases mapActs_of_act hact with
  | @loaded vtable b v hres =>
      constructor
      · exact hv.update ⟨add_nonneg (hv v).1 (hv v).2.2, (hv v).2.2, le_refl 0⟩
      · intro u hu
        by_cases huv : u = v
        · subst huv
          have hzero : (vtable u).delta = 0 :=
            hmapping.cleared u hres (out_ne_nil_of_mem_senders hu)
          simp only [sent, Function.update_self, hzero]
          ring
        · simp only [sent, Function.update_of_ne huv]
  | kept _ => exact ⟨hv, fun _ _ => rfl⟩
  | activate _ => exact ⟨hv, fun _ _ => rfl⟩

/-! ### The distance from the solution -/

/-- How far the ranks may be off, summed over the vertices, after a number of iterations. -/
def errorBound (G : Graph) : Nat → ℚ
  | 0 => G.num_vertices
  | k + 1 => alpha * errorBound G k + G.num_vertices * epsilon

theorem errorBound_eq (G : Graph) (k : Nat) :
    errorBound G k = G.num_vertices * (alpha ^ k + (1 - alpha ^ k) * (epsilon / (1 - alpha))) := by
  have hne : 1 - alpha ≠ 0 := sub_ne_zero.2 (ne_of_gt alpha_lt_one)
  induction k with
  | zero => simp [errorBound]
  | succ k ih =>
      rw [errorBound, ih, pow_succ]
      field_simp
      ring

/-- The residuals that are left together. -/
theorem sum_residual_le {vtable : Table G} (h : ∀ v, |(vtable v).residual| ≤ epsilon) :
    ∑ v, (vtable v).residual ≤ G.num_vertices * epsilon := by
  have hle := Finset.sum_le_card_nsmul Finset.univ (fun v => (vtable v).residual) epsilon
    fun v _ => (le_abs_self _).trans (h v)
  rwa [Finset.card_univ, Fintype.card_fin, nsmul_eq_mul] at hle

/-- How far a run has got, by where it is. -/
def Accurate (π : G.Vertex → ℚ) (max_iterations : Nat) (s : RankState threads G) : Prop :=
  NonNeg s.vtable ∧
    match s.control with
    | .head => s.iter ≤ max_iterations ∧ (flow G).Below π (sent s.vtable) (errorBound G s.iter)
    | .pushing pool => s.iter ≤ max_iterations ∧ (∀ l ∈ pool, l.NonNeg) ∧
        (flow G).Below π (rank s.vtable) (errorBound G s.iter)
    | .mapping _ => s.iter ≤ max_iterations ∧ (flow G).Below π (sent s.vtable) (errorBound G s.iter)
    | .stopped => ∃ iter, (flow G).Below π (sent s.vtable) (errorBound G iter) ∧
        (s.frontier.isEmpty = true ∨ iter = max_iterations)

section Run

variable {π : G.Vertex → ℚ} {max_iterations : Nat} {s t : RankState threads G}

/-- At the loop head the ranks are one turn closer than what was handed on. -/
theorem AtHead.advance (h : AtHead s) (hv : NonNeg s.vtable)
    (hπ : (flow G).Solves (fun _ => INIT_RESIDUAL) π) {iter : Nat}
    (hbelow : (flow G).Below π (sent s.vtable) (errorBound G iter)) :
    (flow G).Below π (rank s.vtable) (errorBound G (iter + 1)) := by
  have hnext := hbelow.advance hπ (rank_add_residual h.balanced) fun v => (hv v).2.2
  exact hnext.mono (add_le_add (le_refl _) (sum_residual_le h.small))

/-- When every push has returned, the senders have handed on their ranks. -/
theorem sent_eq_rank_of_returned {vtable : Table G} {pool : List (Push G)}
    (hholds : (pushDiscipline G).Holds vtable pool) (hall : ∀ l ∈ pool, l.returned = true)
    {u : G.Vertex} (hu : u ∈ (flow G).senders) : sent vtable u = rank vtable u := by
  apply sent_eq_rank
  cases hholds.covered u with
  | inl howes =>
      obtain ⟨l, hl, -, hloaded⟩ := howes
      have hret := hall l hl
      cases l with
      | load v my_val edges => cases hloaded
      | _ => cases hret
  | inr hpaid => exact hpaid (out_ne_nil_of_mem_senders hu)

/-- One step of `operator()` keeps the bound. -/
theorem accurate_step (hπ : (flow G).Solves (fun _ => INIT_RESIDUAL) π) (hinv : Invariant s)
    (hs : Accurate π max_iterations s) (hst : Step (max_iterations + 1) s t) :
    Accurate π max_iterations t := by
  obtain ⟨hv, hs⟩ := hs
  cases hst with
  | @enter vtable frontier next_frontier iter hfull hiter =>
      refine ⟨hv, Nat.lt_succ_iff.1 hiter, ?_, AtHead.advance hinv hv hπ hs.2⟩
      intro l hl
      obtain ⟨v, -, rfl⟩ := List.mem_map.1 hl
      trivial
  | push hstep =>
      obtain ⟨hiter, hpool, hbelow⟩ := hs
      obtain ⟨hv', hpool', hrank⟩ := nonNeg_pushStep hstep hv hpool
      exact ⟨hv', hiter, hpool', hbelow.congr fun u _ => congrFun hrank u⟩
  | pushed hall =>
      obtain ⟨hiter, -, hbelow⟩ := hs
      exact ⟨hv, hiter, hbelow.congr fun u hu => sent_eq_rank_of_returned hinv.2.2.1 hall hu⟩
  | map hstep =>
      obtain ⟨hiter, hbelow⟩ := hs
      obtain ⟨hv', hsent⟩ := mapStep_kept hstep hinv.2.shared hv
      exact ⟨hv', hiter, hbelow.congr hsent⟩
  | mapped hall => exact ⟨hv, hs⟩
  | @stopEmpty vtable frontier next_frontier iter hempty => exact ⟨hv, iter, hs.2, Or.inl hempty⟩
  | @stopBound vtable frontier next_frontier iter hfull hiter =>
      have hlast : iter = max_iterations := Nat.le_antisymm hs.1 (Nat.le_of_not_lt fun h =>
        hiter (Nat.succ_lt_succ h))
      exact ⟨hv, iter, hs.2, Or.inr hlast⟩

/-- At the start nothing is handed on. -/
theorem accurate_initial (helpers : Nat) (hπ : (flow G).Solves (fun _ => INIT_RESIDUAL) π) :
    Accurate π max_iterations (initial helpers G) := by
  have hsum := hπ.sum_le fun _ => INIT_RESIDUAL_nonneg
  have hmass : ∑ v, π v ≤ G.num_vertices := by
    rw [Finset.sum_const, Finset.card_univ, Fintype.card_fin, nsmul_eq_mul, mul_comm] at hsum
    exact le_of_mul_le_mul_right hsum (sub_pos.2 alpha_lt_one)
  have hzero := hπ.below_zero (fun _ => INIT_RESIDUAL_nonneg) hmass
  refine ⟨fun v => ⟨le_refl 0, INIT_RESIDUAL_nonneg, le_refl 0⟩, Nat.zero_le _,
    hzero.congr fun u _ => ?_⟩
  simp [sent, initial]

theorem reachable_accurate {helpers : Nat} {s : RankState (helpers + 1) G}
    (hπ : (flow G).Solves (fun _ => INIT_RESIDUAL) π)
    (h : (system helpers G (max_iterations + 1)).Reachable s) : Accurate π max_iterations s := by
  apply TransitionSystem.Reachable.induct (I := Accurate π max_iterations) _ _ h
  · intro s hs
    obtain rfl : s = initial helpers G := hs
    exact accurate_initial helpers hπ
  · exact fun s t hs hacc hst => accurate_step hπ (reachable_invariant hs) hacc hst

/-- With nothing left to send the ranks solve the equation up to the residuals. -/
theorem AtHead.sum_le_of_empty (h : AtHead s) (hempty : s.frontier.isEmpty = true)
    (hπ : (flow G).Solves (fun _ => INIT_RESIDUAL) π) (hle : ∀ v, rank s.vtable v ≤ π v) :
    ∑ v, (π v - rank s.vtable v) ≤ G.num_vertices * (epsilon / (1 - alpha)) := by
  have hsent : ∀ u ∈ (flow G).senders, sent s.vtable u = rank s.vtable u := by
    intro u hu
    apply sent_eq_rank
    by_contra hdelta
    exact h.fits.isEmpty_iff.1 hempty u (h.active u (out_ne_nil_of_mem_senders hu) hdelta)
  have hfixed : ∀ v, rank s.vtable v + (s.vtable v).residual =
      INIT_RESIDUAL + (flow G).inflow (rank s.vtable) v := by
    intro v
    rw [rank_add_residual h.balanced]
    exact congrArg _ (le_antisymm (DampedFlow.inflow_mono (fun u hu => le_of_eq (hsent u hu)) v)
      (DampedFlow.inflow_mono (fun u hu => le_of_eq (hsent u hu).symm) v))
  have hsum : (1 - alpha) * ∑ v, (π v - rank s.vtable v) ≤ G.num_vertices * epsilon :=
    (DampedFlow.sum_le_of_fixed hπ hfixed hle).trans (sum_residual_le h.small)
  rw [← mul_div_assoc, le_div_iff₀ (sub_pos.2 alpha_lt_one), mul_comm]
  exact hsum

end Run

/-- The PageRank equation has one solution. For every interleaving and every bound on the
    iterations, the ranks a run stops with are at most those of the solution, and fall short of them
    altogether by at most `alpha` to the number of iterations for each vertex, up to
    `epsilon / (1 - alpha)`; only the latter is left when the frontier has run empty. -/
theorem ranks_approach_pagerank (helpers : Nat) (G : Graph) (max_iterations : Nat) :
    ∃ π : G.Vertex → ℚ,
      (∀ x : G.Vertex → ℚ, (∀ v, x v = INIT_RESIDUAL +
        alpha * ∑ u, (G.adjacency.arcs u v : ℚ) * (x u / (G.out u).length)) ↔ x = π) ∧
      ∀ s, (system helpers G (max_iterations + 1)).Reachable s → s.control = .stopped →
        (∀ v, 0 ≤ (s.vtable v).value ∧ INIT_RESIDUAL + (s.vtable v).value ≤ π v) ∧
        ∑ v, (π v - (INIT_RESIDUAL + (s.vtable v).value)) ≤ G.num_vertices *
          (alpha ^ (max_iterations + 1) +
            (1 - alpha ^ (max_iterations + 1)) * (epsilon / (1 - alpha))) ∧
        (s.frontier.isEmpty = true →
          ∑ v, (π v - (INIT_RESIDUAL + (s.vtable v).value)) ≤
            G.num_vertices * (epsilon / (1 - alpha))) := by
  obtain ⟨π, hπ⟩ := (flow G).exists_solves fun _ => INIT_RESIDUAL
  refine ⟨π, fun x => ?_, fun s hs hstopped => ?_⟩
  · have hiff : (∀ v, x v = INIT_RESIDUAL +
        alpha * ∑ u, (G.adjacency.arcs u v : ℚ) * (x u / (G.out u).length)) ↔
        (flow G).Solves (fun _ => INIT_RESIDUAL) x :=
      forall_congr' fun v => by rw [flow_inflow]
    rw [hiff]
    constructor
    · exact fun hx => hx.unique hπ
    · intro hx
      rw [hx]
      exact hπ
  · obtain ⟨vtable, frontier, next_frontier, iter, control⟩ := s
    cases hstopped
    have hhead : AtHead _ := reachable_invariant hs
    obtain ⟨hv, k, hbelow, hk⟩ := reachable_accurate hπ hs
    have hbalance := rank_add_residual hhead.balanced
    have hle : ∀ v, rank vtable v ≤ π v := hbelow.le_of_residual hπ hbalance fun v => (hv v).2.2
    have hempty := fun h => hhead.sum_le_of_empty h hπ hle
    refine ⟨fun v => ⟨(hv v).1, hle v⟩, ?_, hempty⟩
    cases hk with
    | inl h =>
        have hshrink :
            alpha ^ (max_iterations + 1) * (epsilon / (1 - alpha)) ≤ alpha ^ (max_iterations + 1) :=
          mul_le_of_le_one_right (pow_nonneg alpha_nonneg _) (by norm_num [epsilon, alpha])
        apply (hempty h).trans
        apply mul_le_mul_of_nonneg_left _ (Nat.cast_nonneg _)
        linarith
    | inr h =>
        subst h
        rw [← errorBound_eq]
        exact (hbelow.sum_le_of_residual hπ hbalance).trans
          (add_le_add (le_refl _) (sum_residual_le hhead.small))

end FamGraph.PagerankDelta
