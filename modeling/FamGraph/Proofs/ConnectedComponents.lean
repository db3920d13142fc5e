/-
Module: FamGraph.Proofs.ConnectedComponents
Layer: Proofs
Purpose: Label propagation reaches the least label that reaches a vertex. The invariant is per arc:
  the label of the head is at most the label of the tail, or the tail is active for the next round,
  or some push still carries the arc, either because it is about to activate the tail or because it
  has the arc ahead of it with a label no greater than the tail's. A source lowered behind a push's
  back is picked up by whoever lowered it. Labels only fall and always belong to a vertex that
  reaches the holder, so the fixed point is the least reaching id.
Trusted boundary: none
Main exports: Acts, discipline, discipline_sound, loopInvariant_kept,
  connected_components_least_label
-/
import FamGraph.Core.ConnectedComponents
import FamGraph.Proofs.GraphKernel

namespace FamGraph.ConnectedComponents

variable {threads : Nat} {G : Graph}

/-! ### The atomic steps -/

@[simp] theorem store_spurious_left (s : Shared G) (w : G.Vertex) (x : ComponentVertex) :
    (s.store w x).spurious_left = s.spurious_left := rfl

theorem store_vtable (s : Shared G) (w v : G.Vertex) (x : ComponentVertex) :
    (s.store w x).vtable v = if v = w then x else s.vtable v := by
  simp [Shared.store, Function.update_apply]

/-- The atomic steps of `CC_push`, one constructor for each outcome. -/
inductive Acts :
    Shared G × Bitmap threads → Push G → Shared G × Bitmap threads → Push G → Prop where
  | start {s b v edges} : Acts (s, b) (.start v edges) (s, b) (.load v (s.vtable v).id edges)
  | load {s b v my_id w rest} :
      Acts (s, b) (.load v my_id (w :: rest)) (s, b) (.check v my_id w (s.vtable w).id rest)
  | improves {s b v my_id w current rest} : my_id < (s.vtable w).id →
      Acts (s, b) (.check v my_id w current rest) (s, b) (.exchange v my_id w current rest)
  | settled {s b v my_id w current rest} : (s.vtable w).id ≤ my_id →
      Acts (s, b) (.check v my_id w current rest) (s, b) (.load v my_id rest)
  | won {s b v my_id w rest} :
      Acts (s, b) (.exchange v my_id w (s.vtable w).id rest) (s.store w { id := my_id }, b)
        (.activate v my_id w rest)
  | lost {s b v my_id w current rest} : (s.vtable w).id ≠ current →
      Acts (s, b) (.exchange v my_id w current rest) (s, b) (.check v my_id w (s.vtable w).id rest)
  | spurious {s b v my_id w current rest left} : s.spurious_left = left + 1 →
      Acts (s, b) (.exchange v my_id w current rest) ({ s with spurious_left := left }, b)
        (.check v my_id w (s.vtable w).id rest)
  | activate {s b v my_id w rest} (t : Fin threads) :
      Acts (s, b) (.activate v my_id w rest) (s, (b.setBit t w).1) (.load v my_id rest)

/-- `pushStep` takes no other step. -/
theorem acts_of_act {p p' : Shared G × Bitmap threads} {l l' : Push G}
    (h : (kernel threads G).Act p l p' l') : Acts p l p' l' := by
  obtain ⟨t, spurious, h⟩ := h
  obtain ⟨s, b⟩ := p
  cases l with
  | start v edges =>
      simp only [kernel, pushStep, Option.some.injEq, Prod.mk.injEq] at h
      obtain ⟨rfl, rfl⟩ := h
      exact .start
  | load v my_id edges =>
      cases edges with
      | nil => simp [kernel, pushStep] at h
      | cons w rest =>
          simp only [kernel, pushStep, Option.some.injEq, Prod.mk.injEq] at h
          obtain ⟨rfl, rfl⟩ := h
          exact .load
  | check v my_id w current rest =>
      by_cases hlt : my_id < (s.vtable w).id
      · simp only [kernel, pushStep, ComponentVertex.shouldUpdate, hlt, decide_true, if_true,
          Option.some.injEq, Prod.mk.injEq] at h
        obtain ⟨rfl, rfl⟩ := h
        exact .improves hlt
      · simp only [kernel, pushStep, ComponentVertex.shouldUpdate, hlt, decide_false,
          Bool.false_eq_true, if_false, Option.some.injEq, Prod.mk.injEq] at h
        obtain ⟨rfl, rfl⟩ := h
        exact .settled (Nat.le_of_not_lt hlt)
  | exchange v my_id w current rest =>
      cases spurious with
      | true =>
          cases hleft : s.spurious_left with
          | zero => simp [kernel, pushStep, hleft] at h
          | succ left =>
              simp only [kernel, pushStep, hleft, if_true, Option.some.injEq, Prod.mk.injEq] at h
              obtain ⟨rfl, rfl⟩ := h
              exact .spurious hleft
      | false =>
          by_cases heq : (s.vtable w).id = current
          · simp only [kernel, pushStep, heq, Bool.false_eq_true, if_true, if_false,
              Option.some.injEq, Prod.mk.injEq] at h
            obtain ⟨rfl, rfl⟩ := h
            exact heq ▸ .won
          · simp only [kernel, pushStep, heq, Bool.false_eq_true, if_false, Option.some.injEq,
              Prod.mk.injEq] at h
            obtain ⟨rfl, rfl⟩ := h
            exact .lost heq
  | activate v my_id w rest =>
      simp only [kernel, pushStep, Option.some.injEq, Prod.mk.injEq] at h
      obtain ⟨rfl, rfl⟩ := h
      exact .activate t

/-- A push that has not returned can act. -/
theorem exists_act (p : Shared G × Bitmap (threads + 1)) {l : Push G} (h : l.returned = false) :
    ∃ p' l', (kernel (threads + 1) G).Act p l p' l' := by
  obtain ⟨s, b⟩ := p
  cases l with
  | start v edges => exact ⟨_, _, 0, false, rfl⟩
  | load v my_id edges =>
      cases edges with
      | nil => simp [Push.returned] at h
      | cons w rest => exact ⟨_, _, 0, false, rfl⟩
  | check v my_id w current rest =>
      by_cases hlt : (s.vtable w).shouldUpdate my_id = true
      · exact ⟨(s, b), .exchange v my_id w current rest, 0, false,
          by simp [kernel, pushStep, hlt]⟩
      · exact ⟨(s, b), .load v my_id rest, 0, false, by simp [kernel, pushStep, hlt]⟩
  | exchange v my_id w current rest =>
      by_cases heq : (s.vtable w).id = current
      · exact ⟨(s.store w { id := my_id }, b), .activate v my_id w rest, 0, false,
          by simp [kernel, pushStep, heq]⟩
      · exact ⟨(s, b), .check v my_id w (s.vtable w).id rest, 0, false,
          by simp [kernel, pushStep, heq]⟩
  | activate v my_id w rest => exact ⟨_, _, 0, false, rfl⟩

/-- The vertex a push works for. -/
def Push.source : Push G → G.Vertex
  | .start v _ => v
  | .load v _ _ => v
  | .check v _ _ _ _ => v
  | .exchange v _ _ _ _ => v
  | .activate v _ _ _ => v

/-- The label a push has read and is spreading. -/
def Push.label? : Push G → Option Nat
  | .start _ _ => none
  | .load _ my_id _ => some my_id
  | .check _ my_id _ _ _ => some my_id
  | .exchange _ my_id _ _ _ => some my_id
  | .activate _ my_id _ _ => some my_id

/-- The edges a push has not settled yet. -/
def Push.pending : Push G → List G.Vertex
  | .start _ edges => edges
  | .load _ _ edges => edges
  | .check _ _ w _ rest => w :: rest
  | .exchange _ _ w _ rest => w :: rest
  | .activate _ _ _ rest => rest

/-- The push has lowered the label of `x` and is going to activate it. -/
def Push.Claims (x : G.Vertex) : Push G → Prop
  | .activate _ _ w _ => w = x
  | _ => False

/-- What `update_atomic` knows about its local `current`. -/
def Push.Current (s : Shared G) : Push G → Prop
  | .check _ _ w current _ => (s.vtable w).id ≤ current
  | .exchange _ my_id w current _ => (s.vtable w).id ≤ current ∧ my_id < current
  | _ => True

/-- `label` is the id of a vertex that reaches `v`. -/
def Carried (G : Graph) (label : Nat) (v : G.Vertex) : Prop :=
  ∃ u : G.Vertex, u.val = label ∧ G.adjacency.Reaches u v

/-! ### The arc invariant -/

/-- The obligations are the arcs `(v, w)`: once `v` is settled, its label is at least that of
    `w`. -/
def discipline (threads : Nat) (G : Graph) :
    TaskPool.Discipline (Shared G × Bitmap threads) (Push G) (G.Vertex × G.Vertex) where
  Shared p := p.2.Fits G ∧ ∀ v : G.Vertex, Carried G (p.1.vtable v).id v ∧ (p.1.vtable v).id ≤ v
  Local p l := (∀ w ∈ l.pending, w ∈ G.out l.source) ∧
    (∀ label, l.label? = some label → Carried G label l.source) ∧ l.Current p.1
  Apart _ _ := True
  Owes arc p l := l.Claims arc.1 ∨
    l.source = arc.1 ∧ arc.2 ∈ l.pending ∧ ∀ label, l.label? = some label →
      label ≤ (p.1.vtable arc.1).id
  Paid arc p := arc.2 ∈ G.out arc.1 →
    (p.1.vtable arc.2).id ≤ (p.1.vtable arc.1).id ∨ p.2.Active arc.1

/-- Only the step that then claims the vertex changes a label. -/
theorem Acts.id_eq_or_claims {p p' : Shared G × Bitmap threads} {l l' : Push G} (h : Acts p l p' l')
    (x : G.Vertex) : (p'.1.vtable x).id = (p.1.vtable x).id ∨ l'.Claims x := by
  cases h with
  | @won s b v my_id w rest =>
      by_cases hx : x = w
      · exact Or.inr hx.symm
      · exact Or.inl (by simp [store_vtable, hx])
  | _ => exact Or.inl rfl

/-- Labels only fall. -/
theorem Acts.id_le {p p' : Shared G × Bitmap threads} {l l' : Push G} (h : Acts p l p' l')
    (hl : l.Current p.1) (x : G.Vertex) : (p'.1.vtable x).id ≤ (p.1.vtable x).id := by
  cases h with
  | @won s b v my_id w rest =>
      rw [store_vtable]
      split
      · rename_i hx
        subst hx
        exact Nat.le_of_lt hl.2
      · exact Nat.le_refl _
  | _ => exact Nat.le_refl _

/-- Active vertices stay active. -/
theorem Acts.active_mono {p p' : Shared G × Bitmap threads} {l l' : Push G} (h : Acts p l p' l')
    {x : G.Vertex} (hx : p.2.Active x) : p'.2.Active x := by
  cases h with
  | @activate s b v my_id w rest t => exact (Bitmap.active_setBit b t w x).2 (Or.inr hx)
  | _ => exact hx

theorem Acts.source_eq {p p' : Shared G × Bitmap threads} {l l' : Push G} (h : Acts p l p' l') :
    l'.source = l.source := by
  cases h <;> rfl

theorem Acts.pending_subset {p p' : Shared G × Bitmap threads} {l l' : Push G}
    (h : Acts p l p' l') :
    ∀ w ∈ l'.pending, w ∈ l.pending := by
  cases h <;> simp +contextual [Push.pending]

/-- The label of a push is the one it read at its start. -/
theorem Acts.label_eq {p p' : Shared G × Bitmap threads} {l l' : Push G} (h : Acts p l p' l')
    {label : Nat} (hlabel : l'.label? = some label) :
    l.label? = some label ∨ label = (p.1.vtable l.source).id := by
  cases h with
  | start => exact Or.inr (Option.some.inj hlabel).symm
  | _ => exact Or.inl hlabel

/-- One step of a push keeps the shared invariant and its own assertion. -/
theorem own_step {p p' : Shared G × Bitmap threads} {l l' : Push G} (h : Acts p l p' l')
    (hp : (discipline threads G).Shared p) (hl : (discipline threads G).Local p l) :
    (discipline threads G).Shared p' ∧ (discipline threads G).Local p' l' := by
  obtain ⟨hfits, hlabels⟩ := hp
  obtain ⟨hpending, hcarried, hcurrent⟩ := hl
  have hpending' : ∀ w ∈ l'.pending, w ∈ G.out l'.source := by
    intro w hw
    rw [h.source_eq]
    exact hpending w (h.pending_subset w hw)
  have hcarried' : ∀ label, l'.label? = some label → Carried G label l'.source := by
    intro label hlabel
    rw [h.source_eq]
    rcases h.label_eq hlabel with hold | rfl
    · exact hcarried label hold
    · exact (hlabels l.source).1
  refine ⟨⟨?_, ?_⟩, hpending', hcarried', ?_⟩
  · cases h with
    | @activate s b v my_id w rest t => exact hfits.setBit t w
    | _ => exact hfits
  · intro x
    refine ⟨?_, Nat.le_trans (h.id_le hcurrent x) (hlabels x).2⟩
    cases h with
    | @won s b v my_id w rest =>
        rw [store_vtable]
        split
        · rename_i hx
          subst hx
          obtain ⟨u, hu, hreach⟩ := hcarried my_id rfl
          exact ⟨u, hu, hreach.tail (hpending x (by simp [Push.pending]))⟩
        · exact (hlabels x).1
    | _ => exact (hlabels x).1
  · cases h with
    | load => exact Nat.le_refl _
    | improves hlt => exact ⟨hcurrent, Nat.lt_of_lt_of_le hlt hcurrent⟩
    | lost hne => exact Nat.le_refl _
    | spurious hleft => exact Nat.le_refl _
    | _ => trivial

/-- A paid arc stays paid, unless the step has just lowered its tail and owes the activation. -/
theorem paid_step {p p' : Shared G × Bitmap threads} {l l' : Push G} (arc : G.Vertex × G.Vertex)
    (h : Acts p l p' l') (hl : l.Current p.1) (hpaid : (discipline threads G).Paid arc p) :
    (discipline threads G).Owes arc p' l' ∨ (discipline threads G).Paid arc p' := by
  rcases h.id_eq_or_claims arc.1 with heq | hclaims
  · refine Or.inr fun harc => ?_
    rcases hpaid harc with hle | hactive
    · exact Or.inl (by rw [heq]; exact Nat.le_trans (h.id_le hl arc.2) hle)
    · exact Or.inr (h.active_mono hactive)
  · exact Or.inl (Or.inl hclaims)

/-- An arc a push has ahead of it is still ahead, or settled. -/
theorem ahead_step {p p' : Shared G × Bitmap threads} {l l' : Push G} {v w : G.Vertex}
    (h : Acts p l p' l') (hl : l.Current p.1) (hv : l.source = v) (hw : w ∈ l.pending)
    (hlabel : ∀ label, l.label? = some label → label ≤ (p.1.vtable v).id) :
    (discipline threads G).Owes (v, w) p' l' ∨ (discipline threads G).Paid (v, w) p' := by
  rcases h.id_eq_or_claims v with heq | hclaims
  · have hlabel' : ∀ label, l'.label? = some label → label ≤ (p'.1.vtable v).id := by
      intro label hl'
      rw [heq]
      rcases h.label_eq hl' with hold | rfl
      · exact hlabel label hold
      · rw [hv]
    by_cases hstill : w ∈ l'.pending
    · exact Or.inl (Or.inr ⟨h.source_eq.trans hv, hstill, hlabel'⟩)
    · refine Or.inr fun _ => Or.inl ?_
      rw [heq]
      cases h with
      | @settled s b u my_id x current rest hle =>
          obtain rfl : w = x := (List.mem_cons.1 hw).resolve_right hstill
          exact Nat.le_trans hle (hlabel my_id rfl)
      | @won s b u my_id x rest =>
          obtain rfl : w = x := (List.mem_cons.1 hw).resolve_right hstill
          have hset : ((s.store w { id := my_id }).vtable w).id = my_id := by simp [store_vtable]
          have hv' : my_id ≤ (s.vtable v).id := hlabel my_id rfl
          rw [hset]
          exact hv'
      | _ => exact absurd hw hstill
  · exact Or.inl (Or.inl hclaims)

/-- One step of a push settles what the push owed. -/
theorem settle_step {p p' : Shared G × Bitmap threads} {l l' : Push G} (arc : G.Vertex × G.Vertex)
    (h : Acts p l p' l') (hl : (discipline threads G).Local p l)
    (hd : (discipline threads G).Owes arc p l ∨ (discipline threads G).Paid arc p) :
    (discipline threads G).Owes arc p' l' ∨ (discipline threads G).Paid arc p' := by
  rcases hd with (hclaims | ⟨hsource, hpending, hlabel⟩) | hpaid
  · cases h with
    | @activate s b v my_id w rest t =>
        have hw : w = arc.1 := hclaims
        exact Or.inr fun _ => Or.inr ((Bitmap.active_setBit b t w arc.1).2 (Or.inl (by rw [hw])))
    | _ => exact hclaims.elim
  · exact ahead_step h hl.2.2 hsource hpending hlabel
  · exact paid_step arc h hl.2.2 hpaid

/-- The discipline is sound for `CC_push`. -/
theorem discipline_sound : (discipline threads G).Sound (kernel threads G).Act where
  symm _ _ _ := trivial
  apart _ _ _ _ _ _ _ _ _ _ := trivial
  own _ _ _ _ hact hp hl := own_step (acts_of_act hact) hp hl
  stable p l p' l' m hact _ hl _ hm := by
    refine ⟨hm.1, hm.2.1, ?_⟩
    have hfall := (acts_of_act hact).id_le hl.2.2
    have hcurrent := hm.2.2
    cases m with
    | check v my_id w current rest => exact Nat.le_trans (hfall w) hcurrent
    | exchange v my_id w current rest => exact ⟨Nat.le_trans (hfall w) hcurrent.1, hcurrent.2⟩
    | _ => trivial
  settle _ _ _ _ arc hact _ hl hd := settle_step arc (acts_of_act hact) hl hd
  keep p l p' l' m arc hact _ _ _ _ howes := by
    rcases howes with hclaims | ⟨hsource, hpending, hlabel⟩
    · exact Or.inl (Or.inl hclaims)
    · rcases (acts_of_act hact).id_eq_or_claims arc.1 with heq | hclaims
      · exact Or.inl (Or.inr ⟨hsource, hpending, heq.symm ▸ hlabel⟩)
      · exact Or.inr (Or.inl (Or.inl hclaims))

/-! ### The loop -/

/-- At the loop head: labels come from reaching vertices, and every arc is settled or its tail is
    active. -/
structure AtHead (s : Shared G) (frontier next_frontier : Bitmap threads) : Prop where
  fits : frontier.Fits G
  next_fits : next_frontier.Fits G
  next_empty : ∀ v : G.Vertex, ¬ next_frontier.Active v
  labels : ∀ v : G.Vertex, Carried G (s.vtable v).id v ∧ (s.vtable v).id ≤ v
  arcs : ∀ v w : G.Vertex, w ∈ G.out v → (s.vtable w).id ≤ (s.vtable v).id ∨ frontier.Active v

def loopInvariant (threads : Nat) (G : Graph) :
    PushKernel.LoopInvariant threads (Shared G) (Push G) where
  Head := AtHead
  Running frontier p pool := frontier.Fits G ∧ (discipline threads G).Holds p pool

/-- Entering a round: the push of an active tail carries all its arcs. -/
theorem enter_kept {s : Shared G} {frontier next_frontier : Bitmap threads}
    (h : AtHead s frontier next_frontier) :
    (loopInvariant threads G).Running frontier (s, next_frontier)
      ((kernel threads G).tasks frontier) := by
  refine ⟨h.fits, ⟨h.next_fits, h.labels⟩, ?_, List.pairwise_of_forall fun _ _ => trivial, ?_⟩
  · intro l hl
    obtain ⟨v, -, -, rfl⟩ := PushKernel.mem_tasks.1 hl
    refine ⟨fun w hw => hw, fun label hlabel => ?_, trivial⟩
    cases hlabel
  · rintro ⟨v, w⟩
    by_cases hactive : frontier.Active v
    · by_cases harc : w ∈ G.out v
      · refine Or.inl ⟨.start v (G.out v), PushKernel.mem_tasks.2
          ⟨v, hactive, List.ne_nil_of_mem harc, rfl⟩, Or.inr ⟨rfl, harc, fun label hlabel => ?_⟩⟩
        cases hlabel
      · exact Or.inr fun hmem => absurd hmem harc
    · exact Or.inr fun harc => Or.inl ((h.arcs v w harc).resolve_right hactive)

/-- Leaving a round: nothing is owed any more. -/
theorem leave_kept {s : Shared G} {frontier next_frontier : Bitmap threads} {pool : List (Push G)}
    (h : (loopInvariant threads G).Running frontier (s, next_frontier) pool)
    (hall : ∀ l ∈ pool, l.returned = true) : AtHead s next_frontier frontier.clear := by
  obtain ⟨hfits, hholds⟩ := h
  refine ⟨hholds.shared.1, hfits.clear, hfits.not_active_clear, hholds.shared.2, ?_⟩
  intro v w harc
  rcases hholds.covered (v, w) with ⟨l, hl, howes⟩ | hpaid
  · have hret := hall l hl
    cases l with
    | load u my_id edges =>
        cases edges with
        | nil =>
            rcases howes with hclaims | ⟨-, hpending, -⟩
            · exact hclaims.elim
            · exact absurd hpending List.not_mem_nil
        | cons x rest => cases hret
    | _ => cases hret
  · exact hpaid harc

theorem loopInvariant_kept : PushKernel.Kept (kernel threads G) (loopInvariant threads G) where
  enter _ _ _ h _ := enter_kept h
  push _ _ _ _ _ h hpool := ⟨h.1, discipline_sound.step hpool h.2⟩
  leave _ _ _ _ h hall := leave_kept h hall

/-- `operator()` reaches the loop with every vertex active under its own id. -/
theorem atHead_initial (helpers spurious : Nat) :
    AtHead (initial helpers G spurious).shared (initial helpers G spurious).frontier
      (initial helpers G spurious).next_frontier where
  fits := ⟨rfl, Bitmap.counted_setAll 0 fun _ => rfl⟩
  next_fits := .fresh G
  next_empty _ := Bitmap.not_active_fresh _ _
  labels v := ⟨⟨v, rfl, .refl v⟩, Nat.le_refl _⟩
  arcs v _ _ := Or.inr (Bitmap.active_setAll 0 v.isLt)

/-! ### Termination -/

/-- Steps a push has left, with a refresh in reserve while its `current` is out of date. -/
def Push.remaining (s : Shared G) : Push G → Nat
  | .start _ edges => 8 * edges.length + 1
  | .load _ _ edges => 8 * edges.length
  | .check _ _ w current rest =>
      8 * rest.length + 3 + if (s.vtable w).id = current then 0 else 3
  | .exchange _ _ w current rest =>
      8 * rest.length + 2 + if (s.vtable w).id = current then 0 else 3
  | .activate _ _ _ rest => 8 * rest.length + 1

/-- What the labels can still fall, with the spurious failures that are left. -/
def potential (s : Shared G) : Nat := ∑ v, (s.vtable v).id + s.spurious_left

/-- Lowering one label lowers the sum of the labels. -/
theorem sum_store_lt {s : Shared G} {w : G.Vertex} {my_id : Nat} (h : my_id < (s.vtable w).id) :
    ∑ v, ((s.store w { id := my_id }).vtable v).id < ∑ v, (s.vtable v).id := by
  apply Graph.sum_lt (w := w)
  · rw [store_vtable, if_pos rfl]
    exact h
  · intro v hv
    rw [store_vtable, if_neg hv]

/-- An atomic step lowers a label, spends a spurious failure, or uses up one step of the push. -/
theorem Acts.descend {p p' : Shared G × Bitmap threads} {l l' : Push G} (h : Acts p l p' l')
    (hl : l.Current p.1) :
    potential p'.1 < potential p.1 ∨
      p'.1 = p.1 ∧ l'.remaining p.1 < l.remaining p.1 ∧
        ((∃ w, l'.Claims w) ∨ p'.2 ≠ p.2 → ∃ w, l.Claims w) := by
  cases h with
  | start => exact Or.inr ⟨rfl, Nat.lt_succ_self _, activates_nothing fun _ => id⟩
  | load =>
      refine Or.inr ⟨rfl, ?_, activates_nothing fun _ => id⟩
      simp only [Push.remaining, List.length_cons, if_true]
      omega
  | improves hlt =>
      refine Or.inr ⟨rfl, ?_, activates_nothing fun _ => id⟩
      simp only [Push.remaining]
      omega
  | settled hle =>
      refine Or.inr ⟨rfl, ?_, activates_nothing fun _ => id⟩
      simp only [Push.remaining]
      omega
  | @won s b v my_id w rest =>
      refine Or.inl ?_
      have hlt := sum_store_lt (s := s) (w := w) hl.2
      simp only [potential, store_spurious_left]
      omega
  | @lost s b v my_id w current rest hne =>
      refine Or.inr ⟨rfl, ?_, activates_nothing fun _ => id⟩
      simp only [Push.remaining, hne, if_true, if_false]
      omega
  | @spurious s b v my_id w current rest left hleft =>
      refine Or.inl ?_
      simp only [potential, hleft]
      omega
  | @activate s b v my_id w rest t =>
      exact Or.inr ⟨rfl, Nat.lt_succ_self _, fun _ => ⟨w, rfl⟩⟩

def termination (helpers : Nat) (G : Graph) :
    PushKernel.Termination (kernel (helpers + 1) G) (loopInvariant (helpers + 1) G) where
  potential := potential
  fuel s l := l.remaining s
  Won l := ∃ w, l.Claims w
  begin_potential _ := rfl
  push_not_won _ _ := fun ⟨_, hc⟩ => hc
  returned_not_won l hret := by
    cases l with
    | load v my_id edges => exact fun ⟨_, hc⟩ => hc
    | _ => cases hret
  next_empty _ _ _ h := h.next_fits.isEmpty_iff.2 h.next_empty
  descend _ _ _ _ l _ h hl hact := by
    rcases (acts_of_act hact).descend (h.2.tasks l hl).2.2 with hlt | ⟨heq, hless, hwon⟩
    · exact Or.inl hlt
    · rw [heq]
      exact Or.inr ⟨rfl, hless, fun _ => Nat.le_refl _, hwon⟩
  move _ p _ l _ _ hrun := exists_act p hrun

/-! ### Correctness -/

/-- With an empty frontier no arc leads upwards, so every label is the least id that reaches its
    vertex. -/
theorem least_of_stopped {s : Shared G} {frontier next_frontier : Bitmap threads}
    (h : AtHead s frontier next_frontier) (hempty : frontier.isEmpty = true) (v : G.Vertex) :
    IsLeast {label | Carried G label v} (s.vtable v).id := by
  have hdown : ∀ u w : G.Vertex, w ∈ G.out u → (s.vtable w).id ≤ (s.vtable u).id :=
    fun u w harc => (h.arcs u w harc).resolve_right (h.fits.isEmpty_iff.1 hempty u)
  refine ⟨(h.labels v).1, ?_⟩
  rintro label ⟨u, rfl, hreach⟩
  exact Nat.le_trans (Multigraph.Reaches.label_le (fun x => (s.vtable x).id) hdown hreach)
    (h.labels u).2

/-- On a symmetric graph equal labels are the same as being connected. -/
theorem id_eq_iff_reaches {s : Shared G} (hsymm : G.adjacency.Symmetric)
    (hleast : ∀ v, IsLeast {label | Carried G label v} (s.vtable v).id) (v w : G.Vertex) :
    (s.vtable v).id = (s.vtable w).id ↔ G.adjacency.Reaches v w := by
  have hle : ∀ {a b : G.Vertex}, G.adjacency.Reaches a b → (s.vtable b).id ≤ (s.vtable a).id := by
    intro a b hab
    obtain ⟨u, hu, hreach⟩ := (hleast a).1
    exact (hleast b).2 ⟨u, hu, hreach.trans hab⟩
  constructor
  · intro heq
    obtain ⟨u, hu, huv⟩ := (hleast v).1
    obtain ⟨x, hx, hxw⟩ := (hleast w).1
    obtain rfl : u = x := Fin.ext (hu.trans (heq.trans hx.symm))
    exact (hsymm.reaches huv).trans hxw
  · intro hvw
    exact Nat.le_antisymm (hle (hsymm.reaches hvw)) (hle hvw)

/-- For every interleaving of the pushes, connected components terminates with every label the least
    id of a vertex that reaches the holder; on a symmetric graph two labels agree exactly when the
    vertices are connected. At every loop head each arc is settled or its tail is in the
    frontier. -/
theorem connected_components_least_label (helpers : Nat) (G : Graph) :
    (system helpers G).Terminates ∧
      (∀ s, (system helpers G).Reachable s → s.control = .stopped →
        (∀ v : G.Vertex,
          IsLeast {label | ∃ u : G.Vertex, u.val = label ∧ G.adjacency.Reaches u v}
            (s.shared.vtable v).id) ∧
        (G.adjacency.Symmetric → ∀ v w : G.Vertex,
          (s.shared.vtable v).id = (s.shared.vtable w).id ↔ G.adjacency.Reaches v w)) ∧
      ∀ s, (system helpers G).Reachable s → s.control = .head → ∀ v w : G.Vertex, w ∈ G.out v →
        (s.shared.vtable w).id ≤ (s.shared.vtable v).id ∨ s.frontier.Active v := by
  have hinit : ∀ s, (∃ spurious, s = initial helpers G spurious) →
      (loopInvariant (helpers + 1) G).At s := by
    rintro s ⟨spurious, rfl⟩
    exact atHead_initial helpers spurious
  refine ⟨(termination helpers G).terminates loopInvariant_kept hinit, ?_, ?_⟩
  · rintro ⟨shared, frontier, next_frontier, control⟩ hs rfl
    obtain ⟨hhead, hempty⟩ := loopInvariant_kept.reachable hinit hs
    have hleast := least_of_stopped hhead hempty
    exact ⟨hleast, fun hsymm => id_eq_iff_reaches hsymm hleast⟩
  · rintro ⟨shared, frontier, next_frontier, control⟩ hs rfl
    exact (loopInvariant_kept.reachable hinit hs).arcs

end FamGraph.ConnectedComponents
