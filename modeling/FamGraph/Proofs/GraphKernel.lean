/-
Module: FamGraph.Proofs.GraphKernel
Layer: Proofs
Purpose: The two proof rules of the shared kernel loop. `LoopInvariant` pairs an assertion at the
  loop head with one that holds while callbacks run; `Kept.reachable` says that the three
  transitions in and out of a round suffice. `Termination.terminates` is the matching termination
  rule: a potential of the vertex table that falls whenever a vertex is newly activated, and a fuel
  of the callbacks that falls at every other step. A round that activates nothing leaves an empty
  frontier, so a non-empty frontier always witnesses that the potential has fallen.
Trusted boundary: none
Main exports: mem_calls, LoopInvariant, Kept, Kept.reachable, Termination, Termination.terminates
-/
import FamGraph.Core.GraphKernel
import FamGraph.Proofs.Bitmap
import Mathlib.Algebra.Order.BigOperators.Group.Finset
import Mathlib.Data.Prod.Lex

namespace FamGraph

theorem Graph.mem_calls {G : Graph} {wanted : G.Vertex → Bool} {v : G.Vertex} :
    v ∈ G.calls wanted ↔ wanted v = true ∧ G.out v ≠ [] := by
  simp [Graph.calls]

theorem Graph.nodup_calls (G : Graph) (wanted : G.Vertex → Bool) : (G.calls wanted).Nodup :=
  (List.nodup_finRange _).filter _

/-- A set of vertices is counted in a `uint32_t`. -/
theorem Graph.card_lt {G : Graph} (vertices : Finset G.Vertex) : vertices.card < 2 ^ 32 := by
  have hle : vertices.card ≤ Fintype.card G.Vertex := Finset.card_le_univ _
  rw [Fintype.card_fin] at hle
  exact Nat.lt_of_le_of_lt hle G.num_vertices_lt

/-- Lowering the value of one vertex lowers the sum of the values. -/
theorem Graph.sum_lt {G : Graph} {f g : G.Vertex → Nat} {w : G.Vertex} (hw : g w < f w)
    (hother : ∀ v, v ≠ w → g v = f v) : ∑ v, g v < ∑ v, f v := by
  refine Finset.sum_lt_sum (fun v _ => ?_) ⟨w, Finset.mem_univ w, hw⟩
  by_cases hv : v = w
  · subst hv
    exact Nat.le_of_lt hw
  · exact Nat.le_of_eq (hother v hv)

/-- A task that has won no vertex and leaves the bitmap alone has nothing to activate. -/
theorem activates_nothing {ι β : Type*} {Claims : ι → Prop} {next_frontier : β} {P : Prop}
    (hnone : ∀ w, ¬ Claims w) : (∃ w, Claims w) ∨ next_frontier ≠ next_frontier → P := by
  rintro (⟨w, hw⟩ | hne)
  · exact absurd hw (hnone w)
  · exact absurd rfl hne

/-- Two vertices joined by an arc each way. -/
def Graph.edge : Graph where
  num_vertices := 2
  adjacency := ⟨fun v => [v.rev]⟩
  num_vertices_lt := by decide
  degree_lt _ := Nat.one_lt_two_pow (by decide)

theorem Graph.edge_symmetric : Graph.edge.adjacency.Symmetric := by
  simp only [Multigraph.Symmetric, Multigraph.arcs, Graph.edge]
  decide

/-- A bitmap over the vertices of `G` whose counters are right. -/
structure Bitmap.Fits {threads : Nat} (G : Graph) (b : Bitmap threads) : Prop where
  size : b.size = G.num_vertices
  counted : b.Counted

namespace Bitmap.Fits

variable {threads : Nat} {G : Graph} {b : Bitmap threads}

theorem fresh (G : Graph) : (Bitmap.fresh G.num_vertices : Bitmap threads).Fits G :=
  ⟨rfl, Bitmap.counted_fresh _⟩

theorem clear (h : b.Fits G) : b.clear.Fits G :=
  ⟨h.size, Bitmap.counted_clear b⟩

theorem lt_size (h : b.Fits G) (v : G.Vertex) : v.val < b.size := by
  rw [h.size]
  exact v.isLt

theorem setBit (h : b.Fits G) (t : Fin threads) (v : G.Vertex) : (b.setBit t v).1.Fits G :=
  ⟨h.size, Bitmap.counted_setBit t (h.lt_size v) h.counted⟩

theorem not_active_clear (h : b.Fits G) (v : G.Vertex) : ¬ b.clear.Active v :=
  Bitmap.not_active_clear (h.lt_size v)

theorem isEmpty_iff (h : b.Fits G) : b.isEmpty = true ↔ ∀ v : G.Vertex, ¬ b.Active v := by
  have hsize : b.size < 2 ^ 32 := by
    rw [h.size]
    exact G.num_vertices_lt
  rw [Bitmap.isEmpty_iff h.counted hsize, h.size]
  exact ⟨fun hall v => hall v v.isLt, fun hall i hi => hall ⟨i, hi⟩⟩

theorem isEmpty_eq_false_iff (h : b.Fits G) :
    b.isEmpty = false ↔ ∃ v : G.Vertex, b.Active v := by
  rw [← Bool.not_eq_true, h.isEmpty_iff]
  push Not
  rfl

end Bitmap.Fits

namespace PushKernel

variable {threads : Nat} {G : Graph} {Shared Local Choice : Type}
variable {K : PushKernel threads G Shared Local Choice}

/-- The callbacks of a round are the pushes of the active vertices with out-edges. -/
theorem mem_tasks {frontier : Bitmap threads} {l : Local} :
    l ∈ K.tasks frontier ↔
      ∃ v : G.Vertex, frontier.Active v ∧ G.out v ≠ [] ∧ K.push v (G.out v) = l := by
  simp [tasks, Graph.mem_calls, and_assoc]

/-- An assertion for the loop head, and one for the time callbacks of a frontier are running. -/
structure LoopInvariant (threads : Nat) (Shared Local : Type) where
  Head : Shared → Bitmap threads → Bitmap threads → Prop
  Running : Bitmap threads → Shared × Bitmap threads → List Local → Prop

/-- The assertion at whatever point `operator()` is. -/
def LoopInvariant.At (I : LoopInvariant threads Shared Local)
    (s : KernelState threads Shared Local) :
    Prop :=
  match s.control with
  | .head => I.Head s.shared s.frontier s.next_frontier
  | .pushing pool => I.Running s.frontier (s.shared, s.next_frontier) pool
  | .stopped => I.Head s.shared s.frontier s.next_frontier ∧ s.frontier.isEmpty = true

/-- What entering a round, one callback step and leaving a round have to preserve. -/
structure Kept (K : PushKernel threads G Shared Local Choice)
    (I : LoopInvariant threads Shared Local) : Prop where
  enter : ∀ shared frontier next_frontier, I.Head shared frontier next_frontier →
    frontier.isEmpty = false →
    I.Running frontier (K.beginRound shared, next_frontier) (K.tasks frontier)
  push : ∀ frontier p pool p' pool', I.Running frontier p pool →
    TaskPool.Step K.Act (p, pool) (p', pool') → I.Running frontier p' pool'
  leave : ∀ shared frontier next_frontier pool, I.Running frontier (shared, next_frontier) pool →
    (∀ l ∈ pool, K.returned l = true) → I.Head shared next_frontier frontier.clear

/-- One step of `operator()` keeps the loop invariant. -/
theorem Kept.step {I : LoopInvariant threads Shared Local} (hkept : Kept K I)
    {s t : KernelState threads Shared Local} (hs : I.At s) (hst : K.Step s t) : I.At t := by
  cases hst with
  | enter hfull => exact hkept.enter _ _ _ hs hfull
  | push hpool => exact hkept.push _ _ _ _ _ hs hpool
  | leave hall => exact hkept.leave _ _ _ _ hs hall
  | stop hempty => exact ⟨hs, hempty⟩

/-- A kept loop invariant holds at every point of every run. -/
theorem Kept.reachable {I : LoopInvariant threads Shared Local} (hkept : Kept K I)
    {init : KernelState threads Shared Local → Prop} (hinit : ∀ s, init s → I.At s)
    {s : KernelState threads Shared Local} (h : (K.system init).Reachable s) : I.At s :=
  TransitionSystem.Reachable.induct (I := I.At) hinit (fun _ _ _ hs hst => hkept.step hs hst) h

/-- The ingredients of a termination argument. `Won` marks the callbacks that have changed a vertex
    and are about to activate it. -/
structure Termination (K : PushKernel threads G Shared Local Choice)
    (I : LoopInvariant threads Shared Local) where
  potential : Shared → Nat
  fuel : Shared → Local → Nat
  Won : Local → Prop
  begin_potential : ∀ shared, potential (K.beginRound shared) = potential shared
  push_not_won : ∀ v edges, ¬ Won (K.push v edges)
  returned_not_won : ∀ l, K.returned l = true → ¬ Won l
  next_empty : ∀ shared frontier next_frontier, I.Head shared frontier next_frontier →
    next_frontier.isEmpty = true
  descend : ∀ frontier p pool p' l l', I.Running frontier p pool → l ∈ pool → K.Act p l p' l' →
    potential p'.1 < potential p.1 ∨
      potential p'.1 = potential p.1 ∧ fuel p'.1 l' < fuel p.1 l ∧
        (∀ m, fuel p'.1 m ≤ fuel p.1 m) ∧ (Won l' ∨ p'.2 ≠ p.2 → Won l)
  move : ∀ frontier p pool l, I.Running frontier p pool → l ∈ pool → K.returned l = false →
    ∃ p' l', K.Act p l p' l'

namespace Termination

variable {I : LoopInvariant threads Shared Local} (T : Termination K I)

/-- Something has been activated, or is about to be, for the round after the current one. -/
def Awake (s : KernelState threads Shared Local) : Prop :=
  match s.control with
  | .head => s.frontier.isEmpty = false
  | .pushing pool => s.next_frontier.isEmpty = false ∨ ∃ l ∈ pool, T.Won l
  | .stopped => False

open Classical in
/-- Potential and activation together: entering a round spends the activation, a fall of the
    potential pays for a new one. -/
noncomputable def credit (s : KernelState threads Shared Local) : Nat :=
  2 * T.potential s.shared + if T.Awake s then 1 else 0

/-- Position within a round. -/
def phase (s : KernelState threads Shared Local) : Nat :=
  match s.control with
  | .head => 1
  | .pushing _ => 2
  | .stopped => 0

/-- Steps the running callbacks can still take. -/
def work (s : KernelState threads Shared Local) : Nat :=
  match s.control with
  | .pushing pool => (pool.map (T.fuel s.shared)).sum
  | _ => 0

noncomputable def measure (s : KernelState threads Shared Local) : Nat ×ₗ Nat ×ₗ Nat :=
  toLex (T.credit s, toLex (phase s, T.work s))

theorem measure_lt_of_credit {s t : KernelState threads Shared Local}
    (h : T.credit t < T.credit s) : T.measure t < T.measure s :=
  Prod.Lex.toLex_lt_toLex.2 (Or.inl h)

theorem measure_lt_of_phase {s t : KernelState threads Shared Local}
    (hcredit : T.credit t ≤ T.credit s) (h : phase t < phase s) : T.measure t < T.measure s := by
  rcases Nat.lt_or_eq_of_le hcredit with hlt | heq
  · exact T.measure_lt_of_credit hlt
  · exact Prod.Lex.toLex_lt_toLex.2 (Or.inr ⟨heq, Prod.Lex.toLex_lt_toLex.2 (Or.inl h)⟩)

theorem measure_lt_of_work {s t : KernelState threads Shared Local}
    (hcredit : T.credit t ≤ T.credit s) (hphase : phase t = phase s) (h : T.work t < T.work s) :
    T.measure t < T.measure s := by
  rcases Nat.lt_or_eq_of_le hcredit with hlt | heq
  · exact T.measure_lt_of_credit hlt
  · exact Prod.Lex.toLex_lt_toLex.2
      (Or.inr ⟨heq, Prod.Lex.toLex_lt_toLex.2 (Or.inr ⟨hphase, h⟩)⟩)

/-- With the potential unchanged, only a fresh activation raises the credit. -/
theorem credit_le {s t : KernelState threads Shared Local}
    (hpot : T.potential t.shared = T.potential s.shared) (hawake : T.Awake t → T.Awake s) :
    T.credit t ≤ T.credit s := by
  unfold credit
  rw [hpot]
  by_cases ht : T.Awake t
  · simp [ht, hawake ht]
  · simp [ht]

/-- A callback step lowers the measure. -/
theorem measure_lt_of_push {frontier next_frontier next_frontier' : Bitmap threads}
    {shared shared' : Shared} {pool pool' : List Local}
    (hI : I.Running frontier (shared, next_frontier) pool)
    (hpool : TaskPool.Step K.Act ((shared, next_frontier), pool)
      ((shared', next_frontier'), pool')) :
    T.measure ⟨shared', frontier, next_frontier', .pushing pool'⟩ <
      T.measure ⟨shared, frontier, next_frontier, .pushing pool⟩ := by
  obtain ⟨before, l, l', after, rfl, rfl, hact⟩ := hpool.cases_on
  rcases T.descend frontier _ _ _ l l' hI (by simp) hact with hfall | ⟨hpot, hfuel, hothers, hwon⟩
  · apply T.measure_lt_of_credit
    have hlt : T.potential shared' < T.potential shared := hfall
    simp only [credit]
    split <;> split <;> omega
  · apply T.measure_lt_of_work
    · apply T.credit_le hpot
      rintro (hfull | ⟨m, hm, hmwon⟩)
      · by_cases hsame : next_frontier' = next_frontier
        · exact Or.inl (hsame ▸ hfull)
        · exact Or.inr ⟨l, by simp, hwon (Or.inr hsame)⟩
      · by_cases hml : m = l'
        · exact Or.inr ⟨l, by simp, hwon (Or.inl (hml ▸ hmwon))⟩
        · refine Or.inr ⟨m, ?_, hmwon⟩
          simp only [List.mem_append, List.mem_cons, hml, false_or] at hm
          rcases hm with hm | hm <;> simp [hm]
    · rfl
    · have hown : T.fuel shared' l' < T.fuel shared l := hfuel
      have hrest : ∀ ls : List Local,
          (ls.map (T.fuel shared')).sum ≤ (ls.map (T.fuel shared)).sum :=
        fun ls => List.sum_le_sum fun m _ => hothers m
      have hbefore := hrest before
      have hafter := hrest after
      simp only [work, List.map_append, List.map_cons, List.sum_append, List.sum_cons]
      omega

/-- Every step of `operator()` lowers the measure. -/
theorem measure_lt_of_step {s t : KernelState threads Shared Local} (hs : I.At s)
    (hst : K.Step s t) : T.measure t < T.measure s := by
  cases hst with
  | @enter shared frontier next_frontier hfull =>
      apply T.measure_lt_of_credit
      have hempty := T.next_empty _ _ _ hs
      have hasleep : ¬ T.Awake ⟨K.beginRound shared, frontier, next_frontier,
          .pushing (K.tasks frontier)⟩ := by
        rintro (hnext | ⟨l, hl, hwon⟩)
        · rw [hempty] at hnext
          cases hnext
        · obtain ⟨v, -, -, rfl⟩ := mem_tasks.1 hl
          exact T.push_not_won _ _ hwon
      have hawake : T.Awake ⟨shared, frontier, next_frontier, .head⟩ := hfull
      simp [credit, hasleep, hawake, T.begin_potential]
  | push hpool => exact T.measure_lt_of_push hs hpool
  | @leave shared frontier next_frontier pool hall =>
      apply T.measure_lt_of_phase
      · exact T.credit_le rfl fun hawake => Or.inl hawake
      · exact Nat.lt_succ_self 1
  | stop hempty =>
      apply T.measure_lt_of_phase
      · exact T.credit_le rfl fun hawake => hawake.elim
      · exact Nat.zero_lt_one

include T in
/-- A kernel that has not stopped can take a step. -/
theorem exists_step {s : KernelState threads Shared Local} (hs : I.At s)
    (hrunning : s.control ≠ .stopped) : ∃ t, K.Step s t := by
  obtain ⟨shared, frontier, next_frontier, control⟩ := s
  cases control with
  | head =>
      cases hfull : frontier.isEmpty with
      | true => exact ⟨_, .stop hfull⟩
      | false => exact ⟨_, .enter hfull⟩
  | pushing pool =>
      by_cases hall : ∀ l ∈ pool, K.returned l = true
      · exact ⟨_, .leave hall⟩
      · push Not at hall
        obtain ⟨l, hl, hrun⟩ := hall
        obtain ⟨⟨shared', next_frontier'⟩, l', hact⟩ :=
          T.move _ _ _ l hs hl (by simpa using hrun)
        obtain ⟨pool', hpool⟩ := TaskPool.Step.of_mem hl hact
        exact ⟨_, .push hpool⟩
  | stopped => exact absurd rfl hrunning

include T in
/-- The termination rule of the kernel loop. -/
theorem terminates (hkept : Kept K I) {init : KernelState threads Shared Local → Prop}
    (hinit : ∀ s, init s → I.At s) : (K.system init).Terminates :=
  TransitionSystem.terminates_of_measure T.measure
    (fun _ _ hs hst => T.measure_lt_of_step (hkept.reachable hinit hs) hst)
    (fun _ hs hrunning => T.exists_step (hkept.reachable hinit hs) hrunning)

end Termination

end PushKernel

end FamGraph
