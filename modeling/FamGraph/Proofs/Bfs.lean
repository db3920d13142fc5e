/-
Module: FamGraph.Proofs.Bfs
Layer: Proofs
Purpose: `bfs_kernel` computes distances. At the head of round `r + 1` the frontier is level `r` and
  the parents of levels up to `r` hold their distance. While the pushes of that round run, every
  vertex of level `r + 1` is either still ahead of some push or has its parent, and every parent of
  level `r + 1` is either about to be activated by the push that wrote it or active. Both are
  obligations of a `TaskPool.Discipline`, so no interleaving of the four atomic accesses loses a
  vertex.
Trusted boundary: none
Main exports: pushStep_cases, Settled, discipline, discipline_sound, loopInvariant_kept,
  bfs_computes_distances
-/
import FamGraph.Core.Bfs
import FamGraph.Proofs.GraphKernel

namespace FamGraph.Bfs

variable {threads : Nat} {G : Graph} {start_v : G.Vertex}

/-! ### The atomic steps -/

theorem store_vtable (s : Shared G) (w v : G.Vertex) (x : BfsVertex) :
    (s.store w x).vtable v = if v = w then x else s.vtable v := by
  simp [Shared.store, Function.update_apply]

/-- The atomic steps of `bfs_push`, one constructor for each outcome. -/
inductive Acts :
    Shared G × Bitmap threads → Push G → Shared G × Bitmap threads → Push G → Prop where
  | skip {s b w rest} :
      (s.vtable w).visited = true → Acts (s, b) (.load (w :: rest)) (s, b) (.load rest)
  | unvisited {s b w rest} : (s.vtable w).visited = false →
      Acts (s, b) (.load (w :: rest)) (s, b) (.update w rest)
  | won {s b w rest} : (s.vtable w).parent = NULLVERT →
      Acts (s, b) (.update w rest) (s.store w { s.vtable w with parent := s.round }, b)
        (.visit w rest)
  | lost {s b w rest} : (s.vtable w).parent ≠ NULLVERT →
      Acts (s, b) (.update w rest) (s, b) (.load rest)
  | visit {s b w rest} :
      Acts (s, b) (.visit w rest) (s.store w { s.vtable w with visited := true }, b)
        (.activate w rest)
  | activate {s b w rest} (t : Fin threads) :
      Acts (s, b) (.activate w rest) (s, (b.setBit t w).1) (.load rest)

/-- `pushStep` takes no other step. -/
theorem acts_of_act {p p' : Shared G × Bitmap threads} {l l' : Push G}
    (h : (kernel threads G).Act p l p' l') : Acts p l p' l' := by
  obtain ⟨t, _, h⟩ := h
  obtain ⟨s, b⟩ := p
  cases l with
  | load edges =>
      cases edges with
      | nil => simp [kernel, pushStep] at h
      | cons w rest =>
          cases hvisited : (s.vtable w).visited with
          | true =>
              simp only [kernel, pushStep, hvisited, if_true, Option.some.injEq, Prod.mk.injEq] at h
              obtain ⟨rfl, rfl⟩ := h
              exact .skip hvisited
          | false =>
              simp only [kernel, pushStep, hvisited, Bool.false_eq_true, if_false,
                Option.some.injEq, Prod.mk.injEq] at h
              obtain ⟨rfl, rfl⟩ := h
              exact .unvisited hvisited
  | update w rest =>
      by_cases hnull : (s.vtable w).parent = NULLVERT
      · simp only [kernel, pushStep, BfsVertex.updateAtomic, hnull, if_true, Option.some.injEq,
          Prod.mk.injEq] at h
        obtain ⟨rfl, rfl⟩ := h
        exact .won hnull
      · simp only [kernel, pushStep, BfsVertex.updateAtomic, hnull, if_false, Option.some.injEq,
          Prod.mk.injEq] at h
        obtain ⟨rfl, rfl⟩ := h
        exact .lost hnull
  | visit w rest =>
      simp only [kernel, pushStep, Option.some.injEq, Prod.mk.injEq] at h
      obtain ⟨rfl, rfl⟩ := h
      exact .visit
  | activate w rest =>
      simp only [kernel, pushStep, Option.some.injEq, Prod.mk.injEq] at h
      obtain ⟨rfl, rfl⟩ := h
      exact .activate t

/-- The edges a push has not settled yet. -/
def Push.pending : Push G → List G.Vertex
  | .load edges => edges
  | .update w rest => w :: rest
  | .visit _ rest => rest
  | .activate _ rest => rest

/-- The push has written the parent of `w` and is going to activate `w`. -/
def Push.Claims (w : G.Vertex) : Push G → Prop
  | .visit x _ => x = w
  | .activate x _ => x = w
  | _ => False

/-- A push that has not returned can act. -/
theorem exists_act (p : Shared G × Bitmap (threads + 1)) {l : Push G} (h : l.returned = false) :
    ∃ p' l', (kernel (threads + 1) G).Act p l p' l' := by
  obtain ⟨s, b⟩ := p
  cases l with
  | load edges =>
      cases edges with
      | nil => simp [Push.returned] at h
      | cons w rest =>
          by_cases hvisited : (s.vtable w).visited = true
          · exact ⟨(s, b), .load rest, 0, (), by simp [kernel, pushStep, hvisited]⟩
          · exact ⟨(s, b), .update w rest, 0, (), by simp [kernel, pushStep, hvisited]⟩
  | update w rest =>
      by_cases hnull : (s.vtable w).parent = NULLVERT
      · exact ⟨(s.store w { s.vtable w with parent := s.round }, b), .visit w rest, 0, (),
          by simp [kernel, pushStep, BfsVertex.updateAtomic, hnull]⟩
      · exact ⟨(s, b), .load rest, 0, (),
          by simp [kernel, pushStep, BfsVertex.updateAtomic, hnull]⟩
  | visit w rest => exact ⟨_, _, 0, (), rfl⟩
  | activate w rest => exact ⟨_, _, 0, (), rfl⟩

/-! ### The level invariant -/

/-- Distances are below the number of vertices, hence none is `NULLVERT`. -/
theorem level_ne_null {n : Nat} {v : G.Vertex} (h : G.adjacency.Level start_v n v) :
    n ≠ NULLVERT := by
  have hcard := Multigraph.level_lt_card h
  have hlt := G.num_vertices_lt
  rw [Fintype.card_fin] at hcard
  simp only [NULLVERT]
  omega

/-- The table holds the distances up to `lo`, and nothing but distances up to `hi`. -/
structure Labelled (start_v : G.Vertex) (lo hi : Nat) (s : Shared G) : Prop where
  exact : ∀ k v, G.adjacency.Level start_v k v → k ≤ lo → (s.vtable v).parent = k
  sound : ∀ v, (s.vtable v).parent ≠ NULLVERT →
    ∃ k ≤ hi, G.adjacency.Level start_v k v ∧ (s.vtable v).parent = k
  visited : ∀ v, (s.vtable v).visited = true → (s.vtable v).parent ≠ NULLVERT

/-- `w` has an arc from level `r`. -/
def Entered (start_v : G.Vertex) (r : Nat) (w : G.Vertex) : Prop :=
  ∃ u, G.adjacency.Level start_v r u ∧ w ∈ G.out u

/-- An entered vertex without a parent is on the next level. -/
theorem level_succ_of_entered {r hi : Nat} {s : Shared G} {w : G.Vertex}
    (hs : Labelled start_v r hi s) (hw : Entered start_v r w)
    (hnull : (s.vtable w).parent = NULLVERT) : G.adjacency.Level start_v (r + 1) w := by
  obtain ⟨u, hu, harc⟩ := hw
  obtain ⟨m, hm, hlevel⟩ := hu.arc harc
  rcases Nat.lt_or_eq_of_le hm with hlt | rfl
  · have hparent := hs.exact m w hlevel (Nat.lt_succ_iff.1 hlt)
    exact absurd (hparent ▸ hnull) (level_ne_null hlevel)
  · exact hlevel

/-- Writing distance `r + 1` into a vertex of that level keeps the table right. -/
theorem Labelled.store_parent {r : Nat} {s : Shared G} {w : G.Vertex}
    (hs : Labelled start_v r (r + 1) s) (hw : G.adjacency.Level start_v (r + 1) w) :
    Labelled start_v r (r + 1) (s.store w { s.vtable w with parent := r + 1 }) := by
  refine ⟨?_, ?_, ?_⟩
  · intro k v hk hkr
    rw [store_vtable]
    split
    · rename_i hvw
      subst hvw
      exact hw.unique hk
    · exact hs.exact k v hk hkr
  · intro v
    rw [store_vtable]
    split
    · rename_i hvw
      subst hvw
      exact fun _ => ⟨r + 1, Nat.le_refl _, hw, rfl⟩
    · exact hs.sound v
  · intro v
    rw [store_vtable]
    split
    · exact fun _ => level_ne_null hw
    · exact hs.visited v

/-- Setting `visited` of a vertex with a parent keeps the table right. -/
theorem Labelled.store_visited {lo hi : Nat} {s : Shared G} {w : G.Vertex}
    (hs : Labelled start_v lo hi s) (hw : (s.vtable w).parent ≠ NULLVERT) :
    Labelled start_v lo hi (s.store w { s.vtable w with visited := true }) := by
  have hparent : ∀ v, ((s.store w { s.vtable w with visited := true }).vtable v).parent =
      (s.vtable v).parent := by
    intro v
    rw [store_vtable]
    split
    · rename_i hvw
      rw [hvw]
    · rfl
  refine ⟨?_, ?_, ?_⟩
  · intro k v hk hlo
    rw [hparent]
    exact hs.exact k v hk hlo
  · intro v
    rw [hparent]
    exact hs.sound v
  · intro v hv
    rw [hparent]
    rw [store_vtable] at hv
    split at hv
    · rename_i hvw
      exact hvw ▸ hw
    · exact hs.visited v hv

/-- What a round still has to do for a vertex. -/
inductive Debt (G : Graph) where
  | discover (w : G.Vertex)
  | activate (w : G.Vertex)

/-- The argument for round `r + 1`, whose pushes start from level `r`. -/
def discipline (threads : Nat) (start_v : G.Vertex) (r : Nat) :
    TaskPool.Discipline (Shared G × Bitmap threads) (Push G) (Debt G) where
  Shared p := p.1.round = r + 1 ∧ Labelled start_v r (r + 1) p.1 ∧ p.2.Fits G ∧
    ∀ v : G.Vertex, p.2.Active v → G.adjacency.Level start_v (r + 1) v
  Local p l := (∀ w ∈ l.pending, Entered start_v r w) ∧
    ∀ w, l.Claims w → G.adjacency.Level start_v (r + 1) w ∧ (p.1.vtable w).parent = r + 1
  Apart _ _ := True
  Owes
    | .discover w, _, l => w ∈ l.pending
    | .activate w, _, l => l.Claims w
  Paid
    | .discover w, p => Entered start_v r w → (p.1.vtable w).parent ≠ NULLVERT
    | .activate w, p => G.adjacency.Level start_v (r + 1) w → (p.1.vtable w).parent = r + 1 →
        p.2.Active w

/-- A written parent stays written: no step of a round changes a parent that is not `NULLVERT`. -/
theorem Acts.parent_eq {p p' : Shared G × Bitmap threads} {l l' : Push G} (h : Acts p l p' l')
    (v : G.Vertex) (hv : (p.1.vtable v).parent ≠ NULLVERT) :
    (p'.1.vtable v).parent = (p.1.vtable v).parent := by
  cases h with
  | @won s b w rest hnull =>
      rw [store_vtable]
      split
      · rename_i hvw
        exact absurd (hvw ▸ hnull) hv
      · rfl
  | @visit s b w rest =>
      rw [store_vtable]
      split
      · rename_i hvw
        rw [hvw]
      · rfl
  | _ => rfl

/-- A push only ever works off its edges. -/
theorem Acts.pending_subset {p p' : Shared G × Bitmap threads} {l l' : Push G}
    (h : Acts p l p' l') :
    ∀ w ∈ l'.pending, w ∈ l.pending := by
  cases h <;> simp +contextual [Push.pending]

/-- One step of a push keeps the shared invariant and its own assertion. -/
theorem own_step {r : Nat} {p p' : Shared G × Bitmap threads} {l l' : Push G} (h : Acts p l p' l')
    (hp : (discipline threads start_v r).Shared p) (hl : (discipline threads start_v r).Local p l) :
    (discipline threads start_v r).Shared p' ∧ (discipline threads start_v r).Local p' l' := by
  obtain ⟨hround, hlabel, hfits, hnext⟩ := hp
  obtain ⟨hentered, hclaims⟩ := hl
  have hpending : ∀ w ∈ l'.pending, Entered start_v r w :=
    fun w hw => hentered w (h.pending_subset w hw)
  cases h with
  | skip hvisited => exact ⟨⟨hround, hlabel, hfits, hnext⟩, hpending, fun _ hc => hc.elim⟩
  | unvisited hvisited => exact ⟨⟨hround, hlabel, hfits, hnext⟩, hpending, fun _ hc => hc.elim⟩
  | lost hparent => exact ⟨⟨hround, hlabel, hfits, hnext⟩, hpending, fun _ hc => hc.elim⟩
  | @won s b w rest hnull =>
      have hlevel := level_succ_of_entered hlabel (hentered w (by simp [Push.pending])) hnull
      have hr : s.round = r + 1 := hround
      rw [hr]
      refine ⟨⟨hround, hlabel.store_parent hlevel, hfits, hnext⟩, hpending, ?_⟩
      rintro x rfl
      exact ⟨hlevel, by simp [store_vtable]⟩
  | @visit s b w rest =>
      obtain ⟨hlevel, hparent⟩ := hclaims w rfl
      have hne : (s.vtable w).parent ≠ NULLVERT := hparent ▸ level_ne_null hlevel
      refine ⟨⟨hround, hlabel.store_visited hne, hfits, hnext⟩, hpending, ?_⟩
      rintro x rfl
      exact ⟨hlevel, by simpa [store_vtable] using hparent⟩
  | @activate s b w rest t =>
      obtain ⟨hlevel, -⟩ := hclaims w rfl
      refine ⟨⟨hround, hlabel, hfits.setBit t w, ?_⟩, hpending, fun _ hc => hc.elim⟩
      intro v hv
      rcases (Bitmap.active_setBit b t w v).1 hv with hvw | hv
      · exact Fin.ext hvw ▸ hlevel
      · exact hnext v hv

/-- One step of a push settles what the push owed. -/
theorem settle_step {r : Nat} {p p' : Shared G × Bitmap threads} {l l' : Push G} (d : Debt G)
    (h : Acts p l p' l') (hp : (discipline threads start_v r).Shared p)
    (hl : (discipline threads start_v r).Local p l)
    (hd : (discipline threads start_v r).Owes d p l ∨ (discipline threads start_v r).Paid d p) :
    (discipline threads start_v r).Owes d p' l' ∨ (discipline threads start_v r).Paid d p' := by
  obtain ⟨hround, hlabel, hfits, hnext⟩ := hp
  obtain ⟨hentered, hclaims⟩ := hl
  cases d with
  | discover x =>
      -- a paid discovery stays paid, since parents are never erased
      have hpaid : (Entered start_v r x → (p.1.vtable x).parent ≠ NULLVERT) →
          Entered start_v r x → (p'.1.vtable x).parent ≠ NULLVERT := by
        intro hdone hx
        rw [h.parent_eq x (hdone hx)]
        exact hdone hx
      rcases hd with howes | hdone
      · by_cases hstill : x ∈ l'.pending
        · exact Or.inl hstill
        · refine Or.inr fun _ => ?_
          have howes : x ∈ l.pending := howes
          cases h with
          | @skip s b w rest hvisited =>
              obtain rfl : x = w := (List.mem_cons.1 howes).resolve_right hstill
              exact hlabel.visited x hvisited
          | unvisited hvisited => exact absurd howes hstill
          | @won s b w rest hnull =>
              obtain rfl : x = w := (List.mem_cons.1 howes).resolve_right hstill
              have hlevel := level_succ_of_entered hlabel (hentered x (by simp [Push.pending]))
                hnull
              have hr : s.round = r + 1 := hround
              simpa [store_vtable, hr] using level_ne_null hlevel
          | @lost s b w rest hparent =>
              obtain rfl : x = w := (List.mem_cons.1 howes).resolve_right hstill
              exact hparent
          | visit => exact absurd howes hstill
          | activate t => exact absurd howes hstill
      · exact Or.inr (hpaid hdone)
  | activate x =>
      cases h with
      | skip hvisited => exact Or.inr (hd.resolve_left id)
      | unvisited hvisited => exact Or.inr (hd.resolve_left id)
      | lost hparent => exact Or.inr (hd.resolve_left id)
      | @won s b w rest hnull =>
          by_cases hxw : w = x
          · exact Or.inl hxw
          · have hdone : G.adjacency.Level start_v (r + 1) x → (s.vtable x).parent = r + 1 →
                b.Active x := hd.resolve_left id
            refine Or.inr fun hlevel hparent => hdone hlevel ?_
            simpa [store_vtable, Ne.symm hxw] using hparent
      | @visit s b w rest =>
          rcases hd with hclaim | hdone
          · exact Or.inl hclaim
          · refine Or.inr fun hlevel hparent => hdone hlevel ?_
            by_cases hxw : x = w
            · subst hxw
              simpa [store_vtable] using hparent
            · simpa [store_vtable, hxw] using hparent
      | @activate s b w rest t =>
          rcases hd with hclaim | hdone
          · have hwx : w = x := hclaim
            exact Or.inr fun _ _ => (Bitmap.active_setBit b t w x).2 (Or.inl (by rw [hwx]))
          · exact Or.inr fun hlevel hparent =>
              (Bitmap.active_setBit b t w x).2 (Or.inr (hdone hlevel hparent))

/-- The discipline is sound for `bfs_push`. -/
theorem discipline_sound (r : Nat) :
    (discipline threads start_v r).Sound (kernel threads G).Act where
  symm _ _ _ := trivial
  apart _ _ _ _ _ _ _ _ _ _ := trivial
  own _ _ _ _ hact hp hl := own_step (acts_of_act hact) hp hl
  stable p l p' l' m hact _ _ _ hm := by
    refine ⟨hm.1, fun w hw => ?_⟩
    obtain ⟨hlevel, hparent⟩ := hm.2 w hw
    refine ⟨hlevel, ?_⟩
    rw [(acts_of_act hact).parent_eq w (hparent ▸ level_ne_null hlevel), hparent]
  settle _ _ _ _ d hact hp hl hd := settle_step d (acts_of_act hact) hp hl hd
  keep _ _ _ _ _ d _ _ _ _ _ howes := Or.inl <| by
    cases d <;> exact howes

/-! ### The loop -/

/-- At the loop head after `round` rounds. -/
structure AtHead (start_v : G.Vertex) (s : Shared G) (frontier next_frontier : Bitmap threads) :
    Prop where
  fits : frontier.Fits G
  next_fits : next_frontier.Fits G
  next_empty : ∀ v : G.Vertex, ¬ next_frontier.Active v
  labelled : Labelled start_v s.round s.round s
  frontier_level : ∀ v : G.Vertex, frontier.Active v ↔ G.adjacency.Level start_v s.round v
  occupied : ∀ k < s.round, ∃ v, G.adjacency.Level start_v k v

def loopInvariant (threads : Nat) (start_v : G.Vertex) :
    PushKernel.LoopInvariant threads (Shared G) (Push G) where
  Head := AtHead start_v
  Running frontier p pool := ∃ r, frontier.Fits G ∧ (∀ k ≤ r, ∃ v, G.adjacency.Level start_v k v) ∧
    (discipline threads start_v r).Holds p pool

/-- Entering a round: the pushes of the active vertices carry every discovery of the next level. -/
theorem enter_kept {s : Shared G} {frontier next_frontier : Bitmap threads}
    (h : AtHead start_v s frontier next_frontier) (hfull : frontier.isEmpty = false) :
    (loopInvariant threads start_v).Running frontier
      ((kernel threads G).beginRound s, next_frontier)
      ((kernel threads G).tasks frontier) := by
  obtain ⟨v₀, hv₀⟩ := h.fits.isEmpty_eq_false_iff.1 hfull
  have hlevel₀ := (h.frontier_level v₀).1 hv₀
  have hround : ((kernel threads G).beginRound s).round = s.round + 1 := by
    have hcard := Multigraph.level_lt_card hlevel₀
    have hlt := G.num_vertices_lt
    rw [Fintype.card_fin] at hcard
    exact Nat.mod_eq_of_lt (by omega)
  have hlabel : Labelled start_v s.round (s.round + 1) ((kernel threads G).beginRound s) := by
    refine ⟨h.labelled.exact, fun v hv => ?_, h.labelled.visited⟩
    obtain ⟨k, hk, hlevel⟩ := h.labelled.sound v hv
    exact ⟨k, Nat.le_succ_of_le hk, hlevel⟩
  refine ⟨s.round, h.fits, ?_, ⟨hround, hlabel, h.next_fits, ?_⟩, ?_, ?_, ?_⟩
  · intro k hk
    exact hlevel₀.exists_of_le hk
  · exact fun v hv => absurd hv (h.next_empty v)
  · intro l hl
    obtain ⟨u, hu, -, rfl⟩ := PushKernel.mem_tasks.1 hl
    exact ⟨fun w hw => ⟨u, (h.frontier_level u).1 hu, hw⟩, fun _ hc => hc.elim⟩
  · exact List.pairwise_of_forall fun _ _ => trivial
  · intro d
    cases d with
    | discover w =>
        by_cases hw : Entered start_v s.round w
        · obtain ⟨u, hu, harc⟩ := hw
          exact Or.inl ⟨.load (G.out u), PushKernel.mem_tasks.2
            ⟨u, (h.frontier_level u).2 hu, List.ne_nil_of_mem harc, rfl⟩, harc⟩
        · exact Or.inr fun hentered => absurd hentered hw
    | activate w =>
        refine Or.inr fun hlevel hparent => ?_
        have hparent : (s.vtable w).parent = s.round + 1 := hparent
        obtain ⟨k, hk, -, heq⟩ := h.labelled.sound w (hparent ▸ level_ne_null hlevel)
        omega

/-- Leaving a round: nothing is owed any more, so the next frontier is the next level. -/
theorem leave_kept {s : Shared G} {frontier next_frontier : Bitmap threads} {pool : List (Push G)}
    (h : (loopInvariant threads start_v).Running frontier (s, next_frontier) pool)
    (hall : ∀ l ∈ pool, l.returned = true) :
    AtHead start_v s next_frontier frontier.clear := by
  obtain ⟨r, hfits, hoccupied, hholds⟩ := h
  obtain ⟨hround, hlabel, hnext_fits, hnext⟩ := hholds.shared
  have hpaid : ∀ d, (discipline threads start_v r).Paid d (s, next_frontier) := by
    intro d
    refine (hholds.covered d).resolve_left ?_
    rintro ⟨l, hl, howes⟩
    have hdone : l = .load [] := by
      have hret := hall l hl
      cases l with
      | load edges => cases edges with
        | nil => rfl
        | cons w rest => cases hret
      | _ => cases hret
    subst hdone
    cases d with
    | discover w => exact absurd howes List.not_mem_nil
    | activate w => exact howes
  have hr : s.round = r + 1 := hround
  have hfound : ∀ v, G.adjacency.Level start_v (r + 1) v → (s.vtable v).parent = r + 1 := by
    intro v hv
    obtain ⟨u, hu, harc⟩ := hv.pred
    obtain ⟨k, -, hk, heq⟩ := hlabel.sound v (hpaid (.discover v) ⟨u, hu, harc⟩)
    rw [heq]
    exact hk.unique hv
  refine ⟨hnext_fits, ⟨hfits.size, Bitmap.counted_clear _⟩, hfits.not_active_clear, ?_, ?_, ?_⟩
  · rw [hr]
    refine ⟨fun k v hk hle => ?_, hlabel.sound, hlabel.visited⟩
    rcases Nat.lt_or_eq_of_le hle with hlt | rfl
    · exact hlabel.exact k v hk (Nat.lt_succ_iff.1 hlt)
    · exact hfound v hk
  · intro v
    rw [hr]
    exact ⟨hnext v, fun hv => hpaid (.activate v) hv (hfound v hv)⟩
  · intro k hk
    rw [hr] at hk
    exact hoccupied k (Nat.lt_succ_iff.1 hk)

theorem loopInvariant_kept (start_v : G.Vertex) :
    PushKernel.Kept (kernel threads G) (loopInvariant threads start_v) where
  enter _ _ _ h hfull := enter_kept h hfull
  push _ _ _ _ _ h hpool := by
    obtain ⟨r, hfits, hoccupied, hholds⟩ := h
    exact ⟨r, hfits, hoccupied, (discipline_sound r).step hpool hholds⟩
  leave _ _ _ _ h hall := leave_kept h hall

/-- `operator()` reaches the loop with distance 0 settled. -/
theorem atHead_initial (helpers : Nat) (start_v : G.Vertex) :
    AtHead start_v (initial helpers G start_v).shared (initial helpers G start_v).frontier
      (initial helpers G start_v).next_frontier := by
  have hparent : ∀ v, ((initial helpers G start_v).shared.vtable v).parent =
      if v = start_v then 0 else NULLVERT := by
    intro v
    by_cases hv : v = start_v
    · subst hv
      simp [initial, BfsVertex.updateAtomic]
    · simp [initial, hv]
  have hvisited : ∀ v, ((initial helpers G start_v).shared.vtable v).visited = false := by
    intro v
    by_cases hv : v = start_v
    · subst hv
      simp [initial, BfsVertex.updateAtomic]
    · simp [initial, hv]
  have hclear : ((Bitmap.fresh G.num_vertices).clear : Bitmap (helpers + 1)).Fits G :=
    (Bitmap.Fits.fresh G).clear
  refine ⟨hclear.setBit 0 start_v, Bitmap.Fits.fresh G, ?_, ⟨?_, ?_, ?_⟩, ?_, ?_⟩
  · exact fun v => Bitmap.not_active_fresh _ _
  · intro k v hk hk0
    obtain rfl := Nat.le_zero.1 hk0
    simp [hparent, Multigraph.level_zero_iff.1 hk]
  · intro v hv
    rw [hparent] at hv ⊢
    by_cases hstart : v = start_v
    · exact ⟨0, Nat.le_refl _, Multigraph.level_zero_iff.2 hstart, if_pos hstart⟩
    · exact absurd (if_neg hstart) hv
  · intro v hv
    rw [hvisited] at hv
    cases hv
  · intro v
    have hround : (initial helpers G start_v).shared.round = 0 := rfl
    rw [hround, Multigraph.level_zero_iff]
    constructor
    · intro hv
      rcases (Bitmap.active_setBit _ _ _ _).1 hv with heq | hold
      · exact Fin.ext heq
      · exact absurd hold ((Bitmap.Fits.fresh G).not_active_clear v)
    · rintro rfl
      exact (Bitmap.active_setBit _ _ _ _).2 (Or.inl rfl)
  · exact fun k hk => absurd hk (Nat.not_lt_zero k)

/-! ### Termination -/

/-- Atomic accesses a push has left. -/
def Push.remaining : Push G → Nat
  | .load edges => 4 * edges.length
  | .update _ rest => 4 * rest.length + 3
  | .visit _ rest => 4 * rest.length + 2
  | .activate _ rest => 4 * rest.length + 1

/-- Vertices no push has written a parent for. -/
def undiscovered (s : Shared G) : Finset G.Vertex :=
  Finset.univ.filter fun v => (s.vtable v).parent = NULLVERT

/-- An atomic step discovers a vertex, or uses up one access and wakes nobody it had not claimed. -/
theorem Acts.descend {r : Nat} {p p' : Shared G × Bitmap threads} {l l' : Push G}
    (h : Acts p l p' l') (hp : (discipline threads start_v r).Shared p)
    (hl : (discipline threads start_v r).Local p l) :
    (undiscovered p'.1).card < (undiscovered p.1).card ∨
      (undiscovered p'.1).card = (undiscovered p.1).card ∧ l'.remaining < l.remaining ∧
        ((∃ w, l'.Claims w) ∨ p'.2 ≠ p.2 → ∃ w, l.Claims w) := by
  cases h with
  | skip hvisited =>
      exact Or.inr ⟨rfl, by simp [Push.remaining], activates_nothing fun _ => id⟩
  | unvisited hvisited =>
      refine Or.inr ⟨rfl, ?_, activates_nothing fun _ => id⟩
      simp only [Push.remaining, List.length_cons]
      omega
  | lost hparent => exact Or.inr ⟨rfl, by simp [Push.remaining], activates_nothing fun _ => id⟩
  | @won s b w rest hnull =>
      refine Or.inl (Finset.card_lt_card ?_)
      have hlevel := level_succ_of_entered hp.2.1 (hl.1 w (by simp [Push.pending])) hnull
      have hr : s.round = r + 1 := hp.1
      have hne : s.round ≠ NULLVERT := hr ▸ level_ne_null hlevel
      refine Finset.ssubset_iff_of_subset ?_ |>.2 ⟨w, by simpa [undiscovered] using hnull, ?_⟩
      · intro v hv
        simp only [undiscovered, Finset.mem_filter, Finset.mem_univ, true_and] at hv ⊢
        rw [store_vtable] at hv
        split at hv
        · exact absurd hv hne
        · exact hv
      · simpa [undiscovered, store_vtable] using hne
  | @visit s b w rest =>
      refine Or.inr ⟨?_, by simp [Push.remaining], fun _ => ⟨w, rfl⟩⟩
      congr 1
      ext v
      simp only [undiscovered, Finset.mem_filter, Finset.mem_univ, true_and, store_vtable]
      split
      · rename_i hvw
        rw [hvw]
      · rfl
  | @activate s b w rest t =>
      exact Or.inr ⟨rfl, by simp [Push.remaining], fun _ => ⟨w, rfl⟩⟩

def termination (helpers : Nat) (start_v : G.Vertex) :
    PushKernel.Termination (kernel (helpers + 1) G) (loopInvariant (helpers + 1) start_v) where
  potential s := (undiscovered s).card
  fuel _ l := l.remaining
  Won l := ∃ w, l.Claims w
  begin_potential _ := rfl
  push_not_won _ _ := fun ⟨_, hc⟩ => hc
  returned_not_won l hret := by
    cases l with
    | load edges => exact fun ⟨_, hc⟩ => hc
    | _ => cases hret
  next_empty _ _ _ h := h.next_fits.isEmpty_iff.2 h.next_empty
  descend _ _ _ _ l _ h hl hact := by
    obtain ⟨r, -, -, hholds⟩ := h
    rcases (acts_of_act hact).descend hholds.shared (hholds.tasks l hl) with hlt |
      ⟨heq, hless, hwon⟩
    · exact Or.inl hlt
    · exact Or.inr ⟨heq, hless, fun _ => Nat.le_refl _, hwon⟩
  move _ p _ l _ _ hrun := exists_act p hrun

/-! ### Correctness -/

/-- The round counter at the end is one more than the greatest finite distance. -/
theorem round_of_stopped {s : Shared G} {frontier next_frontier : Bitmap threads}
    (h : AtHead start_v s frontier next_frontier) (hempty : frontier.isEmpty = true) :
    ∃ d, IsGreatest {d | ∃ v, G.adjacency.Level start_v d v} d ∧ s.round = d + 1 := by
  have hnone : ∀ v, ¬ G.adjacency.Level start_v s.round v := fun v hv =>
    h.fits.isEmpty_iff.1 hempty v ((h.frontier_level v).2 hv)
  cases hround : s.round with
  | zero =>
      rw [hround] at hnone
      exact absurd (Multigraph.level_zero_iff.2 rfl) (hnone start_v)
  | succ d =>
      refine ⟨d, ⟨h.occupied d (by omega), ?_⟩, rfl⟩
      rintro k ⟨v, hv⟩
      by_contra hlt
      obtain ⟨u, hu⟩ := hv.exists_of_le (show s.round ≤ k by omega)
      exact hnone u hu

/-- For every interleaving of the pushes, bfs terminates with every parent equal to the distance
    from `start_v` (`NULLVERT` if there is none), the frontier at the head of a round is the level
    the rounds before it have reached, and one round more than the greatest distance is run. -/
theorem bfs_computes_distances (helpers : Nat) (G : Graph) (start_v : G.Vertex) :
    (system helpers G start_v).Terminates ∧
      (∀ s, (system helpers G start_v).Reachable s → s.control = .stopped →
        (∀ d v, G.adjacency.Level start_v d v → (s.shared.vtable v).parent = d) ∧
        (∀ v, ¬ G.adjacency.Reaches start_v v → (s.shared.vtable v).parent = NULLVERT) ∧
        ∃ d, IsGreatest {d | ∃ v, G.adjacency.Level start_v d v} d ∧ s.shared.round = d + 1) ∧
      ∀ s, (system helpers G start_v).Reachable s → s.control = .head →
        ∀ v : G.Vertex, s.frontier.Active v ↔ G.adjacency.Level start_v s.shared.round v := by
  have hinit : ∀ s, s = initial helpers G start_v →
      (loopInvariant (helpers + 1) start_v).At s := by
    rintro s rfl
    exact atHead_initial helpers start_v
  refine ⟨(termination helpers start_v).terminates (loopInvariant_kept start_v) hinit, ?_, ?_⟩
  · rintro ⟨shared, frontier, next_frontier, control⟩ hs rfl
    obtain ⟨hhead, hempty⟩ := (loopInvariant_kept start_v).reachable hinit hs
    obtain ⟨d, hgreatest, hround⟩ := round_of_stopped hhead hempty
    refine ⟨fun k v hk => ?_, fun v hv => ?_, d, hgreatest, hround⟩
    · have hkd : k ≤ d := hgreatest.2 ⟨v, hk⟩
      have hround : shared.round = d + 1 := hround
      exact hhead.labelled.exact k v hk (by omega)
    · by_contra hparent
      obtain ⟨k, -, hk, -⟩ := hhead.labelled.sound v hparent
      exact hv hk.reaches
  · rintro ⟨shared, frontier, next_frontier, control⟩ hs rfl
    exact ((loopInvariant_kept start_v).reachable hinit hs).frontier_level

end FamGraph.Bfs
