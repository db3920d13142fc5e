/-
Module: FamGraph.Proofs.Mis
Layer: Proofs
Purpose: The independent set is the greedy one. A decided flag is final and comes with its reason:
  an `IN` vertex has only `OUT` neighbours with priority, an `OUT` vertex has one that is `IN`.
  While pulls run, every vertex below the window is pulled, decided, or waiting in the next
  frontier, and the two counters are off by exactly the pulls that are between counting and writing.
Trusted boundary: none
Main exports: Verdict, Acts, Bookkeeping, discipline, discipline_sound, Tallied, AtHead,
  reachable_invariant, mis_is_greedy
-/
import FamGraph.Core.Mis
import FamGraph.Proofs.GraphKernel
import Mathlib.Data.BitVec
import Mathlib.Tactic.LinearCombination
import Mathlib.Tactic.Ring

namespace FamGraph.Mis

variable {threads : Nat} {G : Graph}

/-! ### Counters -/

namespace Combinable

@[simp] theorem combine_zero : (zero : Combinable threads).combine = 0#32 := by
  simp [combine, zero]

/-- Whichever thread increments, the combined count goes up by one. -/
@[simp] theorem combine_increment (c : Combinable threads) (t : Fin threads) :
    (c.increment t).combine = c.combine + 1#32 := by
  have hsum := sum_update_add c t (c t + 1#32)
  simp only [combine, increment]
  linear_combination hsum

end Combinable

/-! ### The steps of a pull -/

theorem store_vtable (s : Shared threads G) (w v : G.Vertex) (x : MisVertex) :
    (s.store w x).vtable v = if v = w then x else s.vtable v := by
  simp [Shared.store, Function.update_apply]

/-- The steps of `pull`, one constructor for each outcome. -/
inductive Acts :
    Shared threads G × Bitmap threads → Pull G → Shared threads G × Bitmap threads → Pull G →
    Prop where
  | refused {s b v edges} : (s.vtable v).flag = .OUT →
      Acts (s, b) (.enter v edges) (s, b) (.returned v)
  | entered {s b v edges} : (s.vtable v).flag ≠ .OUT →
      Acts (s, b) (.enter v edges) (s, b) (.scan v .IN edges)
  | passed {s b v v_flag w rest} : ¬ w < v →
      Acts (s, b) (.scan v v_flag (w :: rest)) (s, b) (.scan v v_flag rest)
  | waits {s b v v_flag w rest} : w < v → (s.vtable w).flag = .UNDECIDED →
      Acts (s, b) (.scan v v_flag (w :: rest)) (s, b) (.scan v .UNDECIDED rest)
  | beaten {s b v v_flag w rest} : w < v → (s.vtable w).flag = .IN →
      Acts (s, b) (.scan v v_flag (w :: rest)) (s, b) (.scan v .OUT [])
  | clear {s b v v_flag w rest} : w < v → (s.vtable w).flag = .OUT →
      Acts (s, b) (.scan v v_flag (w :: rest)) (s, b)
        (.scan v v_flag (if v_flag = .OUT then [] else rest))
  | undecided {s b v} : Acts (s, b) (.scan v .UNDECIDED []) (s, b) (.activate v)
  | decided {s b v v_flag} : v_flag ≠ .UNDECIDED →
      Acts (s, b) (.scan v v_flag []) (s, b) (.countDecided v v_flag)
  | activate {s b v} (t : Fin threads) :
      Acts (s, b) (.activate v) (s, (b.setBit t v).1) (.countNext v)
  | countNext {s b v} (t : Fin threads) :
      Acts (s, b) (.countNext v)
        ({ s with next_frontier_size := s.next_frontier_size.increment t }, b) (.write v .UNDECIDED)
  | countDecided {s b v v_flag} (t : Fin threads) :
      Acts (s, b) (.countDecided v v_flag) ({ s with n_decided := s.n_decided.increment t }, b)
        (.write v v_flag)
  | write {s b v v_flag} :
      Acts (s, b) (.write v v_flag) (s.store v { flag := v_flag }, b) (.returned v)

/-- `pullStep` takes no other step. -/
theorem acts_of_act {p p' : Shared threads G × Bitmap threads} {l l' : Pull G} (h : Act p l p' l') :
    Acts p l p' l' := by
  obtain ⟨t, h⟩ := h
  obtain ⟨s, b⟩ := p
  cases l with
  | enter v edges =>
      by_cases hout : (s.vtable v).flag = .OUT
      · simp only [pullStep, if_pos hout, Option.some.injEq, Prod.mk.injEq] at h
        obtain ⟨rfl, rfl⟩ := h
        exact .refused hout
      · simp only [pullStep, if_neg hout, Option.some.injEq, Prod.mk.injEq] at h
        obtain ⟨rfl, rfl⟩ := h
        exact .entered hout
  | scan v v_flag edges =>
      cases edges with
      | nil =>
          by_cases hund : v_flag = .UNDECIDED
          · simp only [pullStep, if_pos hund, Option.some.injEq, Prod.mk.injEq] at h
            obtain ⟨rfl, rfl⟩ := h
            exact hund ▸ .undecided
          · simp only [pullStep, if_neg hund, Option.some.injEq, Prod.mk.injEq] at h
            obtain ⟨rfl, rfl⟩ := h
            exact .decided hund
      | cons w rest =>
          by_cases hlt : w < v
          · simp only [pullStep, if_pos hlt, Option.some.injEq, Prod.mk.injEq] at h
            obtain ⟨rfl, rfl⟩ := h
            cases hflag : (s.vtable w).flag with
            | UNDECIDED => exact .waits hlt hflag
            | IN => exact .beaten hlt hflag
            | OUT => exact .clear hlt hflag
          · simp only [pullStep, if_neg hlt, Option.some.injEq, Prod.mk.injEq] at h
            obtain ⟨rfl, rfl⟩ := h
            exact .passed hlt
  | activate v =>
      simp only [pullStep, Option.some.injEq, Prod.mk.injEq] at h
      obtain ⟨rfl, rfl⟩ := h
      exact .activate t
  | countNext v =>
      simp only [pullStep, Option.some.injEq, Prod.mk.injEq] at h
      obtain ⟨rfl, rfl⟩ := h
      exact .countNext t
  | countDecided v v_flag =>
      simp only [pullStep, Option.some.injEq, Prod.mk.injEq] at h
      obtain ⟨rfl, rfl⟩ := h
      exact .countDecided t
  | write v v_flag =>
      simp only [pullStep, Option.some.injEq, Prod.mk.injEq] at h
      obtain ⟨rfl, rfl⟩ := h
      exact .write
  | returned v => simp [pullStep] at h

/-- The vertex a pull works for. -/
def Pull.source : Pull G → G.Vertex
  | .enter v _ => v
  | .scan v _ _ => v
  | .activate v => v
  | .countNext v => v
  | .countDecided v _ => v
  | .write v _ => v
  | .returned v => v

theorem Acts.source_eq {p p' : Shared threads G × Bitmap threads} {l l' : Pull G}
    (h : Acts p l p' l') : l'.source = l.source := by
  cases h <;> rfl

/-! ### Flags and their reasons -/

/-- The reason for a flag of `v`, as far as the neighbours outside `rest` can give it. -/
structure Verdict (vtable : G.Vertex → MisVertex) (v : G.Vertex) (v_flag : MatchFlag)
    (rest : List G.Vertex) : Prop where
  isIn : v_flag = .IN → ∀ w ∈ G.out v, w < v → w ∈ rest ∨ (vtable w).flag = .OUT
  isOut : v_flag = .OUT → ∃ w ∈ G.out v, w < v ∧ (vtable w).flag = .IN

/-- Decided flags stay. -/
def Settles (vtable vtable' : G.Vertex → MisVertex) : Prop :=
  ∀ w, (vtable w).flag ≠ .UNDECIDED → vtable' w = vtable w

/-- A reason is made of decided flags. -/
theorem Verdict.settle {vtable vtable' : G.Vertex → MisVertex} {v : G.Vertex} {v_flag : MatchFlag}
    {rest : List G.Vertex} (h : Verdict vtable v v_flag rest) (hsettles : Settles vtable vtable') :
    Verdict vtable' v v_flag rest where
  isIn hin w hw hlt := by
    rcases h.isIn hin w hw hlt with hrest | hout
    · exact Or.inl hrest
    · exact Or.inr (by rw [hsettles w (by simp [hout]), hout])
  isOut hout := by
    obtain ⟨w, hw, hlt, hin⟩ := h.isOut hout
    exact ⟨w, hw, hlt, by rw [hsettles w (by simp [hin]), hin]⟩

/-- Looking at one more neighbour. -/
theorem Verdict.look {vtable : G.Vertex → MisVertex} {v w : G.Vertex} {v_flag : MatchFlag}
    {rest : List G.Vertex} (h : Verdict vtable v v_flag (w :: rest))
    (hw : w < v → (vtable w).flag = .OUT) : Verdict vtable v v_flag rest where
  isIn hin x hx hlt := by
    rcases h.isIn hin x hx hlt with hrest | hout
    · rcases List.mem_cons.1 hrest with rfl | hrest
      · exact Or.inr (hw hlt)
      · exact Or.inl hrest
    · exact Or.inr hout
  isOut := h.isOut

/-- `v` is below the end of the window, undecided, and not in the next frontier. -/
structure Fresh (bound : Nat) (p : Shared threads G × Bitmap threads) (v : G.Vertex) : Prop where
  lt_bound : v.val < bound
  undecided : (p.1.vtable v).flag = .UNDECIDED
  inactive : ¬ p.2.Active v

/-- `v` is undecided and in the next frontier. -/
structure Waiting (p : Shared threads G × Bitmap threads) (v : G.Vertex) : Prop where
  undecided : (p.1.vtable v).flag = .UNDECIDED
  active : p.2.Active v

/-- What a pull knows at each of its steps. -/
def Pull.Knows (bound : Nat) (p : Shared threads G × Bitmap threads) : Pull G → Prop
  | .enter v edges => Fresh bound p v ∧ edges = G.out v
  | .scan v v_flag edges =>
      Fresh bound p v ∧ (∀ w ∈ edges, w ∈ G.out v) ∧ Verdict p.1.vtable v v_flag edges
  | .activate v => Fresh bound p v
  | .countNext v => Waiting p v
  | .countDecided v v_flag => Fresh bound p v ∧ v_flag ≠ .UNDECIDED ∧ Verdict p.1.vtable v v_flag []
  | .write v v_flag => if v_flag = .UNDECIDED then Waiting p v
      else Fresh bound p v ∧ Verdict p.1.vtable v v_flag []
  | .returned _ => True

/-- A pull that still runs works for an undecided vertex. -/
theorem Pull.Knows.undecided {bound : Nat} {p : Shared threads G × Bitmap threads} {l : Pull G}
    (h : l.Knows bound p) (hrunning : l.done = false) :
    (p.1.vtable l.source).flag = .UNDECIDED := by
  cases l with
  | enter v edges => exact h.1.undecided
  | scan v v_flag edges => exact h.1.undecided
  | activate v => exact Fresh.undecided h
  | countNext v => exact Waiting.undecided h
  | countDecided v v_flag => exact h.1.undecided
  | write v v_flag =>
      simp only [Pull.Knows] at h
      split at h
      · exact h.undecided
      · exact h.1.undecided
  | returned v => cases hrunning

/-- The shared part of the argument for the pulls of one driver call, with window end `bound`. -/
structure Bookkeeping (bound : Nat) (p : Shared threads G × Bitmap threads) : Prop where
  next_fits : p.2.Fits G
  next : ∀ v : G.Vertex, p.2.Active v → v.val < bound ∧ (p.1.vtable v).flag = .UNDECIDED
  ahead : ∀ v : G.Vertex, bound ≤ v.val → G.out v ≠ [] → (p.1.vtable v).flag = .UNDECIDED
  isolated : ∀ v, G.out v = [] → (p.1.vtable v).flag = .IN
  justified : ∀ v, Verdict p.1.vtable v (p.1.vtable v).flag []

/-- Obligation `v`: every undecided vertex below the window end reaches the next frontier. -/
def discipline (threads : Nat) (G : Graph) (bound : Nat) :
    TaskPool.Discipline (Shared threads G × Bitmap threads) (Pull G) G.Vertex where
  Shared := Bookkeeping bound
  Local p l := l.Knows bound p
  Apart l m := l.source ≠ m.source
  Owes v _ l := l.source = v ∧ l.done = false
  Paid v p := v.val < bound → (p.1.vtable v).flag = .UNDECIDED → p.2.Active v

variable {bound : Nat} {p p' : Shared threads G × Bitmap threads} {l l' m : Pull G}

/-- A step writes the flag of its own vertex only. -/
theorem Acts.vtable_eq (h : Acts p l p' l') {v : G.Vertex} (hv : v ≠ l.source) :
    p'.1.vtable v = p.1.vtable v := by
  cases h with
  | @write s b u v_flag =>
      have hne : v ≠ u := hv
      rw [store_vtable, if_neg hne]
  | _ => rfl

/-- A step sets the bit of its own vertex only. -/
theorem Acts.active_iff (h : Acts p l p' l') {v : G.Vertex} (hv : v ≠ l.source) :
    p'.2.Active v ↔ p.2.Active v := by
  cases h with
  | @activate s b u t =>
      have hne : v.val ≠ u.val := fun heq => hv (Fin.ext heq)
      simp [hne]
  | _ => rfl

/-- Bits stay set. -/
theorem Acts.active_mono (h : Acts p l p' l') {v : G.Vertex} (hv : p.2.Active v) :
    p'.2.Active v := by
  cases h with
  | @activate s b u t => exact (Bitmap.active_setBit b t u v).2 (Or.inr hv)
  | _ => exact hv

theorem Acts.running (h : Acts p l p' l') : l.done = false := by
  cases h <;> rfl

/-- Decided flags are final. -/
theorem Acts.settles (h : Acts p l p' l') (hl : l.Knows bound p) :
    Settles p.1.vtable p'.1.vtable := by
  intro w hw
  by_cases hown : w = l.source
  · exact absurd (hown ▸ hl.undecided h.running) hw
  · exact h.vtable_eq hown

/-- A vertex that is undecided afterwards was undecided before. -/
theorem Settles.undecided {vtable vtable' : G.Vertex → MisVertex} (h : Settles vtable vtable')
    {v : G.Vertex} (hv : (vtable' v).flag = .UNDECIDED) : (vtable v).flag = .UNDECIDED := by
  by_contra hne
  rw [h v hne] at hv
  exact hne hv

/-! ### The argument for one driver call -/

/-- The vertex of a running pull lies below the window end. -/
theorem Pull.Knows.lt_bound (h : l.Knows bound p) (hrunning : l.done = false)
    (hp : Bookkeeping bound p) : l.source.val < bound := by
  cases l with
  | enter v edges => exact h.1.lt_bound
  | scan v v_flag edges => exact h.1.lt_bound
  | activate v => exact Fresh.lt_bound h
  | countNext v => exact (hp.next v (Waiting.active h)).1
  | countDecided v v_flag => exact h.1.lt_bound
  | write v v_flag =>
      simp only [Pull.Knows] at h
      split at h
      · exact (hp.next v h.active).1
      · exact h.1.lt_bound
  | returned v => cases hrunning

/-- An undecided flag needs no reason. -/
theorem verdict_undecided (vtable : G.Vertex → MisVertex) (v : G.Vertex) (rest : List G.Vertex) :
    Verdict vtable v .UNDECIDED rest where
  isIn h := nomatch h
  isOut h := nomatch h

/-- A neighbour with priority that is `IN` is reason enough for `OUT`. -/
theorem verdict_out {vtable : G.Vertex → MisVertex} {v : G.Vertex} {rest : List G.Vertex}
    (h : ∃ w ∈ G.out v, w < v ∧ (vtable w).flag = .IN) : Verdict vtable v .OUT rest where
  isIn hin := nomatch hin
  isOut _ := h

/-- The flag a pull writes comes with its reason. -/
theorem verdict_of_write {v : G.Vertex} {v_flag : MatchFlag}
    (h : (Pull.write v v_flag).Knows bound p) : Verdict p.1.vtable v v_flag [] := by
  simp only [Pull.Knows] at h
  split at h
  · rename_i hund
    exact hund ▸ verdict_undecided _ _ _
  · exact h.2

/-- One step of a pull keeps the shared invariant. -/
theorem bookkeeping_step (h : Acts p l p' l') (hp : Bookkeeping bound p) (hl : l.Knows bound p) :
    Bookkeeping bound p' := by
  have hsettles := h.settles hl
  have hlt := hl.lt_bound h.running hp
  refine ⟨?_, ?_, ?_, ?_, ?_⟩
  · cases h with
    | @activate s b v t => exact hp.next_fits.setBit t v
    | _ => exact hp.next_fits
  · intro v hv
    by_cases hown : v = l.source
    · subst hown
      refine ⟨hlt, ?_⟩
      cases h with
      | @write s b v v_flag =>
          simp only [Pull.Knows] at hl
          split at hl
          · rename_i hund
            simp [store_vtable, Pull.source, hund]
          · exact absurd hv hl.1.inactive
      | _ => exact hl.undecided rfl
    · rw [h.vtable_eq hown]
      exact hp.next v ((h.active_iff hown).1 hv)
  · intro v hv hout
    have hown : v ≠ l.source := by
      rintro rfl
      exact absurd hlt (Nat.not_lt.2 hv)
    rw [h.vtable_eq hown]
    exact hp.ahead v hv hout
  · intro v hout
    have hin := hp.isolated v hout
    rw [hsettles v (by simp [hin])]
    exact hin
  · intro v
    by_cases hown : v = l.source
    · subst hown
      cases h with
      | @write s b v v_flag =>
          simp only [store_vtable, Pull.source, if_true]
          exact (verdict_of_write hl).settle hsettles
      | _ => exact hp.justified _
    · rw [h.vtable_eq hown]
      exact (hp.justified v).settle hsettles

/-- One step of a pull gives it what it knows at its next step. -/
theorem knows_step (h : Acts p l p' l') (hp : Bookkeeping bound p) (hl : l.Knows bound p) :
    l'.Knows bound p' := by
  cases h with
  | refused hout => trivial
  | entered hout =>
      obtain ⟨hfresh, rfl⟩ := hl
      exact ⟨hfresh, fun w hw => hw, ⟨fun _ w hw _ => Or.inl hw, fun hout => nomatch hout⟩⟩
  | passed hle =>
      obtain ⟨hfresh, hedges, hverdict⟩ := hl
      exact ⟨hfresh, fun w hw => hedges w (List.mem_cons_of_mem _ hw),
        hverdict.look fun hlt => absurd hlt hle⟩
  | waits hlt hflag =>
      obtain ⟨hfresh, hedges, -⟩ := hl
      exact ⟨hfresh, fun w hw => hedges w (List.mem_cons_of_mem _ hw), verdict_undecided _ _ _⟩
  | @beaten s b v v_flag w rest hlt hflag =>
      obtain ⟨hfresh, hedges, -⟩ := hl
      exact ⟨hfresh, fun x hx => absurd hx List.not_mem_nil,
        verdict_out ⟨w, hedges w List.mem_cons_self, hlt, hflag⟩⟩
  | @clear s b v v_flag w rest hlt hflag =>
      obtain ⟨hfresh, hedges, hverdict⟩ := hl
      have hlook := hverdict.look fun _ => hflag
      by_cases hout : v_flag = .OUT
      · subst hout
        exact ⟨hfresh, fun x hx => absurd hx List.not_mem_nil, verdict_out (hlook.isOut rfl)⟩
      · rw [if_neg hout]
        exact ⟨hfresh, fun x hx => hedges x (List.mem_cons_of_mem _ hx), hlook⟩
  | undecided => exact hl.1
  | decided hdec => exact ⟨hl.1, hdec, hl.2.2⟩
  | @activate s b v t =>
      have hfresh : Fresh bound (s, b) v := hl
      exact ⟨hfresh.undecided, (Bitmap.active_setBit b t v v).2 (Or.inl rfl)⟩
  | @countNext s b v t =>
      have hwaiting : Waiting (s, b) v := hl
      exact ⟨hwaiting.undecided, hwaiting.active⟩
  | @countDecided s b v v_flag t =>
      obtain ⟨hfresh, hdec, hverdict⟩ := hl
      simp only [Pull.Knows, if_neg hdec]
      exact ⟨⟨hfresh.lt_bound, hfresh.undecided, hfresh.inactive⟩, hverdict⟩
  | write => trivial

/-- What is known of a vertex survives the steps of pulls for other vertices. -/
theorem Fresh.stable (h : Acts p l p' l') {v : G.Vertex} (hv : v ≠ l.source)
    (hfresh : Fresh bound p v) : Fresh bound p' v := by
  refine ⟨hfresh.lt_bound, ?_, fun hactive => hfresh.inactive ((h.active_iff hv).1 hactive)⟩
  rw [h.vtable_eq hv]
  exact hfresh.undecided

theorem Waiting.stable (h : Acts p l p' l') {v : G.Vertex} (hv : v ≠ l.source)
    (hwaiting : Waiting p v) : Waiting p' v := by
  refine ⟨?_, (h.active_iff hv).2 hwaiting.active⟩
  rw [h.vtable_eq hv]
  exact hwaiting.undecided

/-- One step of a pull does not disturb what another pull knows. -/
theorem stable_step (h : Acts p l p' l') (hl : l.Knows bound p) (hapart : l.source ≠ m.source)
    (hm : m.Knows bound p) : m.Knows bound p' := by
  have hv : m.source ≠ l.source := fun heq => hapart heq.symm
  have hsettles := h.settles hl
  cases m with
  | enter v edges => exact ⟨hm.1.stable h hv, hm.2⟩
  | scan v v_flag edges => exact ⟨hm.1.stable h hv, hm.2.1, hm.2.2.settle hsettles⟩
  | activate v => exact Fresh.stable h hv hm
  | countNext v => exact Waiting.stable h hv hm
  | countDecided v v_flag => exact ⟨hm.1.stable h hv, hm.2.1, hm.2.2.settle hsettles⟩
  | write v v_flag =>
      by_cases hund : v_flag = .UNDECIDED
      · simp only [Pull.Knows, if_pos hund] at hm ⊢
        exact hm.stable h hv
      · simp only [Pull.Knows, if_neg hund] at hm ⊢
        exact ⟨hm.1.stable h hv, hm.2.settle hsettles⟩
  | returned v => trivial

/-- One step of a pull settles what the pull owed. -/
theorem settle_step (v : G.Vertex) (h : Acts p l p' l') (hl : l.Knows bound p)
    (hd : (discipline threads G bound).Owes v p l ∨ (discipline threads G bound).Paid v p) :
    (discipline threads G bound).Owes v p' l' ∨ (discipline threads G bound).Paid v p' := by
  rcases hd with ⟨hsource, -⟩ | hpaid
  · cases hdone : l'.done with
    | false => exact Or.inl ⟨h.source_eq.trans hsource, hdone⟩
    | true =>
        refine Or.inr fun _ hund => ?_
        subst hsource
        cases h with
        | @refused s b v edges hout =>
            rw [Pull.source, hout] at hund
            cases hund
        | @write s b v v_flag =>
            simp only [Pull.source, store_vtable, if_true] at hund
            simp only [Pull.Knows, if_pos hund] at hl
            exact hl.active
        | _ => cases hdone
  · exact Or.inr fun hlt hund => h.active_mono (hpaid hlt ((h.settles hl).undecided hund))

/-- The discipline is sound for `pull`. -/
theorem discipline_sound : (discipline threads G bound).Sound Act where
  symm _ _ h heq := h heq.symm
  apart _ _ _ _ _ hact _ _ _ hapart heq := hapart ((acts_of_act hact).source_eq.symm.trans heq)
  own _ _ _ _ hact hp hl :=
    ⟨bookkeeping_step (acts_of_act hact) hp hl, knows_step (acts_of_act hact) hp hl⟩
  stable _ _ _ _ _ hact _ hl hapart hm := stable_step (acts_of_act hact) hl hapart hm
  settle _ _ _ _ v hact _ hl hd := settle_step v (acts_of_act hact) hl hd
  keep _ _ _ _ _ _ _ _ _ _ _ howes := Or.inl howes

/-! ### The counters -/

/-- The undecided vertices. -/
def undecidedVertices (vtable : G.Vertex → MisVertex) : Finset G.Vertex :=
  Finset.univ.filter fun v => (vtable v).flag = .UNDECIDED

/-- The undecided vertices below the window end. -/
def undecidedBelow (bound : Nat) (vtable : G.Vertex → MisVertex) : Finset G.Vertex :=
  Finset.univ.filter fun v => v.val < bound ∧ (vtable v).flag = .UNDECIDED

/-- The pull has counted its vertex as decided and not written the flag. -/
def Pull.overcount : Pull G → BitVec 32
  | .write _ v_flag => if v_flag = .UNDECIDED then 0#32 else 1#32
  | _ => 0#32

/-- The pull has set the bit of its vertex and not counted it. -/
def Pull.undercount : Pull G → BitVec 32
  | .countNext _ => 1#32
  | _ => 0#32

/-- The counters agree with flags and frontier, up to the pulls on their way. `undecided` is the
    number of undecided vertices when the iteration began. -/
structure Tallied (undecided : BitVec 32) (p : Shared threads G × Bitmap threads)
    (pool : List (Pull G)) : Prop where
  decided : p.1.n_decided.combine + BitVec.ofNat 32 (undecidedVertices p.1.vtable).card =
    undecided + (pool.map Pull.overcount).sum
  next : p.1.next_frontier_size.combine + (pool.map Pull.undercount).sum = p.2.numSet

/-- Writing a decided flag takes one vertex off the undecided ones. -/
theorem card_undecided_store {s : Shared threads G} {v : G.Vertex} {v_flag : MatchFlag}
    (hv : (s.vtable v).flag = .UNDECIDED) (hflag : v_flag ≠ .UNDECIDED) :
    (undecidedVertices (s.store v { flag := v_flag }).vtable).card + 1 =
      (undecidedVertices s.vtable).card := by
  have herase : undecidedVertices (s.store v { flag := v_flag }).vtable =
      (undecidedVertices s.vtable).erase v := by
    ext w
    simp only [undecidedVertices, Finset.mem_filter, Finset.mem_univ, true_and, Finset.mem_erase,
      store_vtable]
    by_cases hwv : w = v
    · simp [hwv, hflag]
    · simp [hwv]
  rw [herase]
  exact Finset.card_erase_add_one (by simp [undecidedVertices, hv])

/-- Writing back an undecided flag changes nothing. -/
theorem store_undecided {s : Shared threads G} {v : G.Vertex}
    (hv : (s.vtable v).flag = .UNDECIDED) :
    (s.store v { flag := .UNDECIDED }).vtable = s.vtable := by
  funext w
  rw [store_vtable]
  split
  · rename_i hwv
    subst hwv
    exact congrArg MisVertex.mk hv.symm
  · rfl

/-- What a step does to the count of decided vertices. -/
theorem Acts.decided_balance (h : Acts p l p' l') (hl : l.Knows bound p) :
    p'.1.n_decided.combine + BitVec.ofNat 32 (undecidedVertices p'.1.vtable).card + l.overcount =
      p.1.n_decided.combine + BitVec.ofNat 32 (undecidedVertices p.1.vtable).card +
        l'.overcount := by
  cases h with
  | @countDecided s b v v_flag t =>
      simp only [Pull.overcount, if_neg hl.2.1, Combinable.combine_increment, BitVec.add_zero]
      ring
  | @write s b v v_flag =>
      have hund : (s.vtable v).flag = .UNDECIDED := hl.undecided rfl
      by_cases hflag : v_flag = .UNDECIDED
      · subst hflag
        simp only [store_undecided hund, Pull.overcount, if_true]
        rfl
      · have hcard := card_undecided_store hund hflag
        simp only [Pull.overcount, if_neg hflag, ← hcard, BitVec.ofNat_add, BitVec.add_zero]
        simp only [Shared.store]
        ring
  | _ => rfl

/-- What a step does to the count of the next frontier. -/
theorem Acts.next_balance (h : Acts p l p' l') (hl : l.Knows bound p) :
    p'.1.next_frontier_size.combine + p.2.numSet + l'.undercount =
      p.1.next_frontier_size.combine + p'.2.numSet + l.undercount := by
  cases h with
  | @activate s b v t =>
      have hinactive : ¬ b.Active v := Fresh.inactive hl
      rw [Bitmap.numSet_setBit, if_neg hinactive]
      simp only [Pull.undercount, BitVec.add_zero]
      ring
  | @countNext s b v t =>
      simp only [Pull.undercount, Combinable.combine_increment, BitVec.add_zero]
      ring
  | _ => rfl

/-- A step keeps the tally. -/
theorem Tallied.step {undecided : BitVec 32} {pool pool' : List (Pull G)}
    (hholds : (discipline threads G bound).Holds p pool)
    (hstep : TaskPool.Step Act (p, pool) (p', pool')) (h : Tallied undecided p pool) :
    Tallied undecided p' pool' := by
  constructor
  · obtain ⟨l, hl, l', hact, hsum⟩ := hstep.sum_map Pull.overcount
    have hbalance := (acts_of_act hact).decided_balance (hholds.tasks l hl)
    have hdecided := h.decided
    linear_combination hbalance + hdecided - hsum
  · obtain ⟨l, hl, l', hact, hsum⟩ := hstep.sum_map Pull.undercount
    have hbalance := (acts_of_act hact).next_balance (hholds.tasks l hl)
    have hnext := h.next
    linear_combination hbalance + hnext + hsum

/-! ### The loop -/

/-- At the loop head: the frontier holds the undecided vertices below the window, and the counts are
    right. -/
structure AtHead (delta : BitVec 32) (s : MisState threads G) : Prop where
  frontier_fits : s.frontier.Fits G
  book : Bookkeeping s.end_.toNat (s.shared, s.next_frontier)
  next_empty : ∀ v : G.Vertex, ¬ s.next_frontier.Active v
  frontier : ∀ v : G.Vertex,
    s.frontier.Active v ↔ v.val < s.end_.toNat ∧ (s.shared.vtable v).flag = .UNDECIDED
  counters : s.shared.n_decided.combine = 0#32 ∧ s.shared.next_frontier_size.combine = 0#32
  start_eq : s.start = s.end_
  end_le : s.end_.toNat ≤ G.num_vertices
  front_size : s.front_size = BitVec.ofNat 32 (undecidedBelow s.end_.toNat s.shared.vtable).card
  front_le : (undecidedBelow s.end_.toNat s.shared.vtable).card ≤ delta.toNat
  undecided : s.undecided = BitVec.ofNat 32 (undecidedVertices s.shared.vtable).card

/-- While pulls run: at most `room` vertices below the window are undecided. -/
structure Pulling (room : Nat) (s : MisState threads G) (pool : List (Pull G)) : Prop where
  frontier_fits : s.frontier.Fits G
  holds : (discipline threads G s.end_.toNat).Holds (s.shared, s.next_frontier) pool
  tallied : Tallied s.undecided (s.shared, s.next_frontier) pool
  end_le : s.end_.toNat ≤ G.num_vertices
  room : (undecidedBelow s.end_.toNat s.shared.vtable).card ≤ room

/-- The invariant of `operator()`. -/
def Invariant (delta : BitVec 32) (s : MisState threads G) : Prop :=
  match s.control with
  | .head => AtHead delta s
  | .frontierPulls pool =>
      Pulling s.front_size.toNat s pool ∧ s.start = s.end_ ∧ s.front_size ≤ delta
  | .rangePulls pool => Pulling delta.toNat s pool
  | .stopped => AtHead delta s ∧ s.undecided = 0#32

/-- Undecided vertices only get fewer. -/
theorem Settles.card_le {vtable vtable' : G.Vertex → MisVertex} (h : Settles vtable vtable')
    (bound : Nat) : (undecidedBelow bound vtable').card ≤ (undecidedBelow bound vtable).card := by
  refine Finset.card_le_card fun v hv => ?_
  simp only [undecidedBelow, Finset.mem_filter] at hv ⊢
  exact ⟨hv.1, hv.2.1, h.undecided hv.2.2⟩

/-- The pulls a driver starts know what a pull knows at its start, and work for distinct
    vertices. -/
theorem pulls_start {wanted : G.Vertex → Bool}
    (hwanted : ∀ v, wanted v = true → G.out v ≠ [] → Fresh bound p v) :
    (∀ l ∈ pulls wanted, l.Knows bound p) ∧
      (pulls wanted).Pairwise fun l m => l.source ≠ m.source := by
  constructor
  · intro l hl
    obtain ⟨v, hv, rfl⟩ := List.mem_map.1 hl
    obtain ⟨hw, hout⟩ := Graph.mem_calls.1 hv
    exact ⟨hwanted v hw hout, rfl⟩
  · exact List.pairwise_map.2 (G.nodup_calls wanted)

/-- Pulls that have not begun have counted nothing. -/
theorem sum_pulls_eq_zero (f : Pull G → BitVec 32) (hf : ∀ v edges, f (.enter v edges) = 0#32)
    (wanted : G.Vertex → Bool) : ((pulls wanted).map f).sum = 0#32 := by
  refine List.sum_eq_zero fun x hx => ?_
  obtain ⟨l, hl, rfl⟩ := List.mem_map.1 hx
  obtain ⟨v, -, rfl⟩ := List.mem_map.1 hl
  exact hf v _

/-- Pulls that have returned are counted in full. -/
theorem sum_done_eq_zero {f : Pull G → BitVec 32} (hf : ∀ v, f (.returned v) = 0#32)
    {pool : List (Pull G)} (hall : ∀ l ∈ pool, l.done = true) : (pool.map f).sum = 0#32 := by
  refine List.sum_eq_zero fun x hx => ?_
  obtain ⟨l, hl, rfl⟩ := List.mem_map.1 hx
  have hdone := hall l hl
  cases l with
  | returned v => exact hf v
  | _ => cases hdone

/-- A driver call on fresh vertices, when every other undecided vertex below the window end is
    already in the next frontier. -/
theorem holds_pulls {wanted : G.Vertex → Bool} (hp : Bookkeeping bound p)
    (hwanted : ∀ v, wanted v = true → G.out v ≠ [] → Fresh bound p v)
    (hrest : ∀ v : G.Vertex, v.val < bound → (p.1.vtable v).flag = .UNDECIDED → wanted v = false →
      p.2.Active v) :
    (discipline threads G bound).Holds p (pulls wanted) := by
  obtain ⟨hknows, hapart⟩ := pulls_start hwanted
  refine ⟨hp, hknows, hapart, fun v => ?_⟩
  by_cases hcall : wanted v = true ∧ G.out v ≠ []
  · exact Or.inl ⟨.enter v (G.out v), List.mem_map_of_mem (Graph.mem_calls.2 hcall), rfl, rfl⟩
  · refine Or.inr fun hlt hund => ?_
    have hout : G.out v ≠ [] := fun hnil => by
      rw [hp.isolated v hnil] at hund
      cases hund
    refine hrest v hlt hund ?_
    by_contra hw
    exact hcall ⟨by simpa using hw, hout⟩

/-- When all pulls have returned, the next frontier holds the undecided vertices below the
    window. -/
theorem Pulling.next_iff {room : Nat} {s : MisState threads G} {pool : List (Pull G)}
    (h : Pulling room s pool) (hall : ∀ l ∈ pool, l.done = true) (v : G.Vertex) :
    s.next_frontier.Active v ↔ v.val < s.end_.toNat ∧ (s.shared.vtable v).flag = .UNDECIDED := by
  refine ⟨h.holds.shared.next v, fun ⟨hlt, hund⟩ => ?_⟩
  rcases h.holds.covered v with ⟨l, hl, -, hrunning⟩ | hpaid
  · rw [hall l hl] at hrunning
    cases hrunning
  · exact hpaid hlt hund

/-- One step of a pull keeps the invariant of the driver call. -/
theorem Pulling.step {room : Nat} {s : MisState threads G} {pool pool' : List (Pull G)}
    {shared : Shared threads G} {next_frontier : Bitmap threads} {control : Control G}
    (h : Pulling room s pool)
    (hstep : TaskPool.Step Act ((s.shared, s.next_frontier), pool)
      ((shared, next_frontier), pool')) :
    Pulling room { s with
      shared := shared, next_frontier := next_frontier, control := control } pool' := by
  refine ⟨h.frontier_fits, discipline_sound.step hstep h.holds, h.tallied.step h.holds hstep,
    h.end_le, ?_⟩
  obtain ⟨before, l, l', after, hpool, -, hact⟩ := hstep.cases_on
  have hl : l ∈ pool := by simp [hpool]
  exact Nat.le_trans (((acts_of_act hact).settles (h.holds.tasks l hl)).card_le _) h.room

/-! ### The transitions between driver calls -/

variable {delta : BitVec 32}

/-- Entering an iteration. -/
theorem AtHead.enter {s : MisState threads G} (h : AtHead delta s) :
    Pulling s.front_size.toNat { s with control := .frontierPulls s.frontierPulls }
      s.frontierPulls := by
  have hfront : s.front_size.toNat = (undecidedBelow s.end_.toNat s.shared.vtable).card := by
    rw [h.front_size, BitVec.toNat_ofNat, Nat.mod_eq_of_lt (Graph.card_lt _)]
  have hnumSet : s.next_frontier.numSet = 0#32 := by
    have hempty := h.book.next_fits.isEmpty_iff.2 h.next_empty
    simpa [Bitmap.isEmpty] using hempty
  -- an empty frontier is not visited, and then no vertex below the window is undecided
  have hshape : ∃ wanted, s.frontierPulls = pulls wanted ∧
      ∀ v : G.Vertex, wanted v = true ↔ v.val < s.end_.toNat ∧
        (s.shared.vtable v).flag = .UNDECIDED := by
    by_cases hpos : 0#32 < s.front_size
    · refine ⟨_, if_pos hpos, fun v => ?_⟩
      simp only [Bool.and_eq_true, decide_eq_true_eq, h.frontier v]
      exact ⟨fun hv => hv.1, fun hv => ⟨hv, hv.1⟩⟩
    · refine ⟨fun _ => false, ?_, fun v => ?_⟩
      · simp [MisState.frontierPulls, hpos, pulls, Graph.calls]
      · have hzero : (undecidedBelow s.end_.toNat s.shared.vtable).card = 0 := by
          rw [← hfront]
          have hle : ¬ 0 < s.front_size.toNat := hpos
          omega
        rw [Finset.card_eq_zero] at hzero
        simp only [Bool.false_eq_true, false_iff]
        intro hv
        have hmem : v ∈ undecidedBelow s.end_.toNat s.shared.vtable := by
          simpa [undecidedBelow] using hv
        rw [hzero] at hmem
        exact absurd hmem (Finset.notMem_empty v)
  obtain ⟨wanted, hpool, hwanted⟩ := hshape
  rw [hpool]
  refine ⟨h.frontier_fits, holds_pulls h.book ?_ ?_, ⟨?_, ?_⟩, h.end_le, Nat.le_of_eq hfront.symm⟩
  · intro v hw _
    exact ⟨((hwanted v).1 hw).1, ((hwanted v).1 hw).2, h.next_empty v⟩
  · intro v hlt hund hw
    rw [(hwanted v).2 ⟨hlt, hund⟩] at hw
    cases hw
  · rw [sum_pulls_eq_zero _ fun _ _ => rfl]
    simp only [h.counters.1, h.undecided, BitVec.zero_add, BitVec.add_zero]
  · rw [sum_pulls_eq_zero _ fun _ _ => rfl]
    simp only [h.counters.2, hnumSet, BitVec.add_zero]

theorem totalVerts_toNat : (totalVerts G).toNat = G.num_vertices := by
  rw [totalVerts, BitVec.toNat_ofNat, Nat.mod_eq_of_lt G.num_vertices_lt]

/-- `end + delta - front_size` fits into 32 bits. -/
def HasRoom (delta : BitVec 32) (s : MisState threads G) : Prop :=
  s.end_.toNat + (delta.toNat - s.front_size.toNat) < 2 ^ 32

/-- When the frontier has been pulled, the window end can be moved on without overflow. -/
def RoomToBreak (delta : BitVec 32) (s : MisState threads G) : Prop :=
  ∀ pool, s.control = .frontierPulls pool → (∀ l ∈ pool, l.done = true) → HasRoom delta s

/-- The new window end. -/
theorem nextEnd_toNat {s : MisState threads G} (hroom : HasRoom delta s)
    (hfront : s.front_size ≤ delta) :
    (s.nextEnd delta).toNat =
      min (s.end_.toNat + (delta.toNat - s.front_size.toNat)) G.num_vertices := by
  have hle : s.front_size.toNat ≤ delta.toNat := hfront
  have hsmall : s.end_.toNat + (delta.toNat - s.front_size.toNat) < 2 ^ 32 := hroom
  have hwindow : (s.end_ + delta - s.front_size).toNat =
      s.end_.toNat + (delta.toNat - s.front_size.toNat) := by
    have hlt := s.front_size.isLt
    rw [BitVec.toNat_sub, BitVec.toNat_add]
    omega
  unfold MisState.nextEnd
  simp only [BitVec.lt_def, hwindow, totalVerts_toNat]
  split
  · rw [hwindow]
    omega
  · rw [totalVerts_toNat]
    omega

/-- Widening the window from `lo` to `hi` adds at most `hi - lo` undecided vertices. -/
theorem card_undecidedBelow_add_le (vtable : G.Vertex → MisVertex) (lo hi : Nat) :
    (undecidedBelow hi vtable).card ≤ (undecidedBelow lo vtable).card + (hi - lo) := by
  have hsubset : (undecidedBelow hi vtable).map Fin.valEmbedding ⊆
      (undecidedBelow lo vtable).map Fin.valEmbedding ∪ Finset.Ico lo hi := by
    intro i hi'
    obtain ⟨v, hv, rfl⟩ := Finset.mem_map.1 hi'
    simp only [undecidedBelow, Finset.mem_filter, Finset.mem_univ, true_and] at hv
    rw [Finset.mem_union, Finset.mem_Ico]
    rcases Nat.lt_or_ge v.val lo with hlt | hge
    · refine Or.inl (Finset.mem_map.2 ⟨v, ?_, rfl⟩)
      simpa [undecidedBelow] using ⟨hlt, hv.2⟩
    · exact Or.inr ⟨hge, hv.1⟩
  have hcard := Nat.le_trans (Finset.card_le_card hsubset) (Finset.card_union_le _ _)
  rw [Finset.card_map, Finset.card_map, Nat.card_Ico] at hcard
  exact hcard

/-- Opening the window. -/
theorem Pulling.breakGround {s : MisState threads G} {pool : List (Pull G)}
    (h : Pulling s.front_size.toNat s pool) (hroom : HasRoom delta s)
    (hstart : s.start = s.end_) (hfront : s.front_size ≤ delta)
    (hall : ∀ l ∈ pool, l.done = true) :
    Pulling delta.toNat { s with
        end_ := s.nextEnd delta
        control := .rangePulls { s with end_ := s.nextEnd delta }.rangePulls }
      { s with end_ := s.nextEnd delta }.rangePulls := by
  have hend := nextEnd_toNat hroom hfront
  have hend_le := h.end_le
  have hle : s.end_.toNat ≤ (s.nextEnd delta).toNat := by omega
  have hfront_le : s.front_size.toNat ≤ delta.toNat := hfront
  have hshape : ∃ wanted, ({ s with end_ := s.nextEnd delta } : MisState threads G).rangePulls =
      pulls wanted ∧ ∀ v : G.Vertex, wanted v = true ↔
        s.end_.toNat ≤ v.val ∧ v.val < (s.nextEnd delta).toNat := by
    by_cases hlt : s.start < s.nextEnd delta
    · refine ⟨_, if_pos hlt, fun v => ?_⟩
      simp only [Bool.and_eq_true, decide_eq_true_eq, hstart]
    · refine ⟨fun _ => false, ?_, fun v => ?_⟩
      · simp [MisState.rangePulls, hlt, pulls, Graph.calls]
      · have hge : ¬ s.end_.toNat < (s.nextEnd delta).toNat := hstart ▸ hlt
        simp only [Bool.false_eq_true, false_iff]
        omega
  obtain ⟨wanted, hpool, hwanted⟩ := hshape
  have hold := h.holds.shared
  have hbook : Bookkeeping (s.nextEnd delta).toNat (s.shared, s.next_frontier) := by
    refine ⟨hold.next_fits, fun v hv => ?_, fun v hv => hold.ahead v (Nat.le_trans hle hv),
      hold.isolated, hold.justified⟩
    exact ⟨Nat.lt_of_lt_of_le (hold.next v hv).1 hle, (hold.next v hv).2⟩
  rw [hpool]
  refine ⟨h.frontier_fits, holds_pulls hbook ?_ ?_, ⟨?_, ?_⟩, ?_, ?_⟩
  · intro v hw hout
    obtain ⟨hge, hlt⟩ := (hwanted v).1 hw
    refine ⟨hlt, hold.ahead v hge hout, fun hactive => ?_⟩
    exact absurd (hold.next v hactive).1 (Nat.not_lt.2 hge)
  · intro v hlt hund hw
    refine (h.next_iff hall v).2 ⟨?_, hund⟩
    by_contra hge
    rw [(hwanted v).2 ⟨Nat.le_of_not_lt hge, hlt⟩] at hw
    cases hw
  · have hdecided := h.tallied.decided
    rw [sum_done_eq_zero (fun _ => rfl) hall] at hdecided
    rw [sum_pulls_eq_zero _ fun _ _ => rfl]
    exact hdecided
  · have hnext := h.tallied.next
    rw [sum_done_eq_zero (fun _ => rfl) hall] at hnext
    rw [sum_pulls_eq_zero _ fun _ _ => rfl]
    exact hnext
  · change (s.nextEnd delta).toNat ≤ G.num_vertices
    omega
  · have hwiden := card_undecidedBelow_add_le s.shared.vtable s.end_.toNat (s.nextEnd delta).toNat
    have hbelow := h.room
    change (undecidedBelow (s.nextEnd delta).toNat s.shared.vtable).card ≤ delta.toNat
    omega

/-- The next frontier counts the undecided vertices below the window. -/
theorem Pulling.numSet_eq {room : Nat} {s : MisState threads G} {pool : List (Pull G)}
    (h : Pulling room s pool) (hall : ∀ l ∈ pool, l.done = true) :
    s.next_frontier.numSet =
      BitVec.ofNat 32 (undecidedBelow s.end_.toNat s.shared.vtable).card := by
  have hfits : s.next_frontier.Fits G := h.holds.shared.next_fits
  have hmap : (undecidedBelow s.end_.toNat s.shared.vtable).map Fin.valEmbedding =
      s.next_frontier.support := by
    ext i
    simp only [Finset.mem_map, Bitmap.mem_support, hfits.size]
    constructor
    · rintro ⟨v, hv, rfl⟩
      refine ⟨v.isLt, (h.next_iff hall v).2 ?_⟩
      simpa [undecidedBelow] using hv
    · rintro ⟨hlt, hactive⟩
      refine ⟨⟨i, hlt⟩, ?_, rfl⟩
      simpa [undecidedBelow] using (h.next_iff hall ⟨i, hlt⟩).1 hactive
  rw [hfits.counted, ← hmap, Finset.card_map]

/-- Closing an iteration. -/
theorem Pulling.finish {s : MisState threads G} {pool : List (Pull G)}
    (h : Pulling delta.toNat s pool) (hall : ∀ l ∈ pool, l.done = true) :
    AtHead delta s.finishRound := by
  have hdecided := h.tallied.decided
  have hnext := h.tallied.next
  rw [sum_done_eq_zero (fun _ => rfl) hall] at hdecided hnext
  have hold := h.holds.shared
  refine ⟨hold.next_fits, ⟨h.frontier_fits.clear, ?_, hold.ahead, hold.isolated, hold.justified⟩,
    h.frontier_fits.not_active_clear, h.next_iff hall, ⟨?_, ?_⟩, rfl, h.end_le, ?_, h.room, ?_⟩
  · exact fun v hv => absurd hv (h.frontier_fits.not_active_clear v)
  · exact Combinable.combine_zero
  · exact Combinable.combine_zero
  · have hnumSet := h.numSet_eq hall
    simp only [MisState.finishRound]
    rw [← hnumSet, ← hnext, BitVec.add_zero]
  · simp only [MisState.finishRound]
    rw [BitVec.add_zero] at hdecided
    rw [← hdecided]
    exact add_sub_cancel_left _ _

/-- With room for `total_verts + delta` there is always room. -/
theorem Invariant.roomToBreak {s : MisState threads G} (hs : Invariant delta s)
    (hroom : G.num_vertices + delta.toNat < 2 ^ 32) : RoomToBreak delta s := by
  intro pool hctl hall
  simp only [Invariant, hctl] at hs
  have hend := hs.1.end_le
  rw [HasRoom]
  omega

/-- One step of `operator()` keeps the invariant. -/
theorem invariant_step {s t : MisState threads G} (hroom : RoomToBreak delta s)
    (hs : Invariant delta s) (hst : Step delta s t) : Invariant delta t := by
  cases hst with
  | enter hctl hpos =>
      simp only [Invariant, hctl] at hs
      refine ⟨hs.enter, hs.start_eq, ?_⟩
      have hle : s.front_size.toNat ≤ delta.toNat := by
        rw [hs.front_size, BitVec.toNat_ofNat, Nat.mod_eq_of_lt (Graph.card_lt _)]
        exact hs.front_le
      exact hle
  | pullFrontier hctl hstep =>
      simp only [Invariant, hctl] at hs
      exact ⟨hs.1.step hstep, hs.2⟩
  | breakGround hctl hall =>
      simp only [Invariant, hctl] at hs
      exact hs.1.breakGround (hroom _ hctl hall) hs.2.1 hs.2.2 hall
  | pullRange hctl hstep =>
      simp only [Invariant, hctl] at hs
      exact hs.step hstep
  | finish hctl hall =>
      simp only [Invariant, hctl] at hs
      exact hs.finish hall
  | stop hctl hzero =>
      simp only [Invariant, hctl] at hs
      refine ⟨⟨hs.frontier_fits, hs.book, hs.next_empty, hs.frontier, hs.counters, hs.start_eq,
        hs.end_le, hs.front_size, hs.front_le, hs.undecided⟩, ?_⟩
      have hle : ¬ 0 < s.undecided.toNat := hzero
      exact BitVec.eq_of_toNat_eq (by simpa using hle)

/-- `operator()` reaches the loop with an empty window and the isolated vertices in. -/
theorem atHead_initial (threads : Nat) (G : Graph) : AtHead delta (initial threads G) := by
  have hflag : ∀ v, ((initial threads G).shared.vtable v).flag =
      if G.out v = [] then .IN else .UNDECIDED := by
    intro v
    simp only [initial, List.length_eq_zero_iff]
    split <;> rfl
  have hbelow :
      undecidedBelow (initial threads G).end_.toNat (initial threads G).shared.vtable = ∅ := by
    refine Finset.filter_eq_empty_iff.2 fun v _ hv => ?_
    exact absurd hv.1 (Nat.not_lt_zero _)
  have hsplit :
      (undecidedVertices (initial threads G).shared.vtable).card + (zeroDegNodes G).length =
        G.num_vertices := by
    have hzero : (zeroDegNodes G).length =
        (Finset.univ.filter fun v : G.Vertex => G.out v = []).card := by
      rw [zeroDegNodes, ← List.toFinset_card_of_nodup ((List.nodup_finRange _).filter _)]
      congr 1
      ext v
      simp
    have hund : undecidedVertices (initial threads G).shared.vtable =
        Finset.univ.filter fun v : G.Vertex => ¬ G.out v = [] := by
      refine Finset.filter_congr fun v _ => ?_
      rw [hflag v]
      by_cases hnil : G.out v = []
      · simp [hnil]
      · simp [hnil]
    rw [hzero, hund, Nat.add_comm, Finset.card_filter_add_card_filter_not, Finset.card_univ,
      Fintype.card_fin]
  refine ⟨.fresh G, ⟨.fresh G, ?_, ?_, ?_, ?_⟩, ?_, ?_, ⟨?_, ?_⟩, rfl, Nat.zero_le _, ?_, ?_, ?_⟩
  · exact fun v hv => absurd hv (Bitmap.not_active_fresh _ _)
  · intro v _ hout
    rw [hflag v, if_neg hout]
  · intro v hnil
    rw [hflag v, if_pos hnil]
  · intro v
    rw [hflag v]
    split
    · rename_i hnil
      refine ⟨fun _ w hw => ?_, fun h => nomatch h⟩
      rw [hnil] at hw
      exact absurd hw List.not_mem_nil
    · exact verdict_undecided _ _ _
  · exact fun v => Bitmap.not_active_fresh _ _
  · exact fun v => ⟨fun hv => absurd hv (Bitmap.not_active_fresh _ _),
      fun hv => absurd hv.1 (Nat.not_lt_zero _)⟩
  · exact Combinable.combine_zero
  · exact Combinable.combine_zero
  · rw [hbelow]
    rfl
  · rw [hbelow]
    exact Nat.zero_le _
  · simp only [initial]
    rw [totalVerts, ← hsplit, BitVec.ofNat_add]
    exact add_sub_cancel_right _ _

/-- The invariant holds throughout every run. -/
theorem reachable_invariant {helpers : Nat} {divisor : BitVec 32}
    (hroom : G.num_vertices + G.num_vertices / divisor.toNat < 2 ^ 32)
    {s : MisState (helpers + 1) G} (h : (system helpers G divisor).Reachable s) :
    Invariant (totalVerts G / divisor) s := by
  have hdelta : (totalVerts G / divisor).toNat = G.num_vertices / divisor.toNat := by
    rw [BitVec.toNat_udiv, totalVerts_toNat]
  refine TransitionSystem.Reachable.induct (I := Invariant (totalVerts G / divisor)) ?_ ?_ h
  · rintro s ⟨-, rfl⟩
    exact atHead_initial _ G
  · exact fun s t _ hs hst => invariant_step (hs.roomToBreak (by rw [hdelta]; exact hroom)) hs hst

/-! ### Correctness -/

/-- With no vertex undecided, the reasons say that the `IN` vertices are the greedy set. -/
theorem isGreedy_of_decided {vtable : G.Vertex → MisVertex}
    (hjustified : ∀ v, Verdict vtable v (vtable v).flag [])
    (hdecided : ∀ v, (vtable v).flag ≠ .UNDECIDED) :
    G.adjacency.IsGreedy fun v => (vtable v).flag = .IN := by
  intro v
  constructor
  · intro hin w hw hlt hwin
    have hout := ((hjustified v).isIn hin w hw hlt).resolve_left List.not_mem_nil
    rw [hout] at hwin
    cases hwin
  · intro hfree
    cases hflag : (vtable v).flag with
    | UNDECIDED => exact absurd hflag (hdecided v)
    | IN => exact hflag
    | OUT =>
        obtain ⟨w, hw, hlt, hwin⟩ := (hjustified v).isOut hflag
        exact absurd hwin (hfree w hw hlt)

/-- When `operator()` has stopped, every vertex is decided for a reason. -/
theorem decided_of_stopped {s : MisState threads G} (h : AtHead delta s)
    (hzero : s.undecided = 0#32) :
    (∀ v, (s.shared.vtable v).flag ≠ .UNDECIDED) ∧
      G.adjacency.IsGreedy fun v => (s.shared.vtable v).flag = .IN := by
  have hcard : (undecidedVertices s.shared.vtable).card = 0 := by
    have heq := congrArg BitVec.toNat (h.undecided.symm.trans hzero)
    rwa [BitVec.toNat_ofNat, Nat.mod_eq_of_lt (Graph.card_lt _)] at heq
  have hdecided : ∀ v, (s.shared.vtable v).flag ≠ .UNDECIDED := by
    intro v hv
    have hmem : v ∈ undecidedVertices s.shared.vtable := by simpa [undecidedVertices] using hv
    rw [Finset.card_eq_zero.1 hcard] at hmem
    exact Finset.notMem_empty v hmem
  exact ⟨hdecided, isGreedy_of_decided h.book.justified hdecided⟩

/-- On a symmetric graph, however the pulls interleave, `operator()` can only stop with every vertex
    decided and the `IN` vertices the greedy independent set: independent, self-loops aside,
    maximal, and the same for any other schedule and divisor. -/
theorem mis_is_greedy (helpers : Nat) (G : Graph) (divisor : BitVec 32)
    (hsymm : G.adjacency.Symmetric)
    (hroom : G.num_vertices + G.num_vertices / divisor.toNat < 2 ^ 32)
    (s : MisState (helpers + 1) G) (hs : (system helpers G divisor).Reachable s)
    (hstopped : s.control = .stopped) :
    (∀ v, (s.shared.vtable v).flag ≠ .UNDECIDED) ∧
      (∀ v, (s.shared.vtable v).flag = .IN ↔
        ∀ w ∈ G.out v, w < v → (s.shared.vtable w).flag ≠ .IN) ∧
      (∀ u v, (s.shared.vtable u).flag = .IN → (s.shared.vtable v).flag = .IN → v ∈ G.out u →
        u = v) ∧
      (∀ v, (s.shared.vtable v).flag ≠ .IN →
        ∃ w ∈ G.out v, w ≠ v ∧ (s.shared.vtable w).flag = .IN) ∧
      ∀ helpers' divisor' (s' : MisState (helpers' + 1) G),
        G.num_vertices + G.num_vertices / divisor'.toNat < 2 ^ 32 →
        (system helpers' G divisor').Reachable s' → s'.control = .stopped →
        s'.shared.vtable = s.shared.vtable := by
  have hfinal : ∀ helpers' divisor' (s' : MisState (helpers' + 1) G),
      G.num_vertices + G.num_vertices / divisor'.toNat < 2 ^ 32 →
      (system helpers' G divisor').Reachable s' → s'.control = .stopped →
      (∀ v, (s'.shared.vtable v).flag ≠ .UNDECIDED) ∧
        G.adjacency.IsGreedy fun v => (s'.shared.vtable v).flag = .IN := by
    intro helpers' divisor' s' hroom' hs' hstopped'
    have hinv := reachable_invariant hroom' hs'
    simp only [Invariant, hstopped'] at hinv
    exact decided_of_stopped hinv.1 hinv.2
  obtain ⟨hdecided, hgreedy⟩ := hfinal helpers divisor s hroom hs hstopped
  refine ⟨hdecided, hgreedy, fun u v hu hv harc => hgreedy.independent hsymm hu hv harc,
    fun v hv => hgreedy.maximal hv, ?_⟩
  intro helpers' divisor' s' hroom' hs' hstopped'
  obtain ⟨hdecided', hgreedy'⟩ := hfinal helpers' divisor' s' hroom' hs' hstopped'
  funext v
  have hiff := Multigraph.isGreedy_unique hgreedy' hgreedy v
  refine congrArg MisVertex.mk (?_ : (s'.shared.vtable v).flag = (s.shared.vtable v).flag)
  have hout := hdecided v
  have hout' := hdecided' v
  revert hiff hout hout'
  cases (s'.shared.vtable v).flag <;> cases (s.shared.vtable v).flag <;> simp

/-- One step of one pull of a range, in a run. -/
theorem reachable_pullRange {helpers : Nat} {divisor : BitVec 32} {s : MisState (helpers + 1) G}
    (before : List (Pull G)) {after : List (Pull G)} {shared : Shared (helpers + 1) G}
    {next_frontier : Bitmap (helpers + 1)} (hs : (system helpers G divisor).Reachable s)
    (hctl : s.control = .rangePulls (before ++ l :: after))
    (hstep : pullStep 0 (s.shared, s.next_frontier) l = some ((shared, next_frontier), l')) :
    (system helpers G divisor).Reachable { s with
      shared := shared
      next_frontier := next_frontier
      control := .rangePulls (before ++ l' :: after) } :=
  hs.step (.pullRange hctl (.intro before after ⟨0, hstep⟩))

/-- A run on a single edge: vertex 0 is pulled first and goes in, vertex 1 is pulled second. -/
theorem mis_edge_decided : ∃ s, (system 0 Graph.edge 1#32).Reachable s ∧
    s.control = .stopped ∧ ∀ v, (s.shared.vtable v).flag ≠ .UNDECIDED := by
  have hinit : (system 0 Graph.edge 1#32).Reachable (initial 1 Graph.edge) :=
    .of_init ⟨by decide, rfl⟩
  have hopen := (hinit.step (.enter rfl (by decide))).step
    (.breakGround rfl fun l hl => absurd hl List.not_mem_nil)
  have hzero := reachable_pullRange [] (reachable_pullRange [] (reachable_pullRange []
    (reachable_pullRange [] (reachable_pullRange [] hopen rfl rfl) rfl rfl) rfl rfl) rfl rfl) rfl
    rfl
  let first : List (Pull Graph.edge) := [.returned (0 : Fin 2)]
  have hone := reachable_pullRange first (reachable_pullRange first (reachable_pullRange first
    (reachable_pullRange first (reachable_pullRange first hzero rfl rfl) rfl rfl) rfl rfl)
      rfl rfl) rfl rfl
  have hall : ∀ l ∈ first ++ [.returned (1 : Fin 2)], l.done = true := by
    intro l hl
    rcases List.mem_append.1 hl with hl | hl <;> rw [List.mem_singleton.1 hl] <;> rfl
  have hstop := (hone.step (.finish rfl hall)).step (.stop rfl (by decide))
  exact ⟨_, hstop, rfl,
    (mis_is_greedy 0 Graph.edge 1#32 Graph.edge_symmetric (by decide) _ hstop rfl).1⟩

end FamGraph.Mis
