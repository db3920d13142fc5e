/-
Module: FamGraph.Proofs.BitmapHistory
Layer: Proofs
Purpose: Count and content of a bitmap agree throughout every history. A bit is won by the one
  fetch-and-or that finds it unset; its call is then pending until it has incremented its thread's
  counter. So the counters and the pending wins add up to the bits set, and each bit set since the
  last `clear` was won once.
Trusted boundary: none
Main exports: setBit_eq, getBit_fetchOr_of_ne, History.Kept, History.Agrees,
  bitmap_count_and_content
-/
import FamGraph.Core.BitmapHistory
import FamGraph.Proofs.Bitmap
import Mathlib.Algebra.Order.BigOperators.Group.Finset
import Mathlib.Tactic.Ring

namespace FamGraph.Bitmap

variable {threads : Nat}

/-! ### The parts of `set_bit` -/

/-- The two parts of `set_bit` one after the other. -/
theorem setBit_eq (b : Bitmap threads) (t : Fin threads) (i : Nat) :
    b.setBit t i = (if (b.fetchOr i).2 then (b.fetchOr i).1.increment t else (b.fetchOr i).1,
      (b.fetchOr i).2) := by
  by_cases hunset : b.data (wordOffset i) &&& (1#64 <<< bitOffset i) = 0#64
  · simp [setBit, fetchOr, increment, hunset]
  · simp [setBit, fetchOr, hunset]

theorem active_fetchOr (b : Bitmap threads) (t : Fin threads) (i j : Nat) :
    (b.fetchOr i).1.Active j ↔ j = i ∨ b.Active j :=
  active_setBit b t i j

theorem fetchOr_snd (b : Bitmap threads) (i : Nat) : (b.fetchOr i).2 = true ↔ ¬ b.Active i := by
  simp [fetchOr, Active, getBit]

@[simp] theorem numSet_fetchOr (b : Bitmap threads) (i : Nat) : (b.fetchOr i).1.numSet = b.numSet :=
  rfl

@[simp] theorem numSet_increment (b : Bitmap threads) (t : Fin threads) :
    (b.increment t).numSet = b.numSet + 1#32 := by
  have hsum := sum_update_add b.frontier_size t (b.frontier_size t + 1#32)
  simp only [numSet, increment]
  linear_combination hsum

/-- Every other index reads as before. -/
theorem getBit_fetchOr_of_ne (b : Bitmap threads) {i j : Nat} (hne : j ≠ i) :
    (b.fetchOr i).1.getBit j = b.getBit j := by
  by_cases hword : wordOffset j = wordOffset i
  · have hbit : bitOffset j ≠ bitOffset i := fun heq => hne (offset_injective hword heq)
    have hmask : (1#64 <<< bitOffset i) &&& (1#64 <<< bitOffset j) = 0#64 := by
      by_contra hboth
      rw [← ne_eq, and_mask_ne_zero _ (bitOffset_lt j)] at hboth
      simp only [BitVec.getLsbD_shiftLeft, BitVec.getLsbD_one, Bool.and_eq_true, decide_eq_true_eq,
        Bool.not_eq_true', decide_eq_false_iff_not] at hboth
      omega
    simp only [getBit, fetchOr, hword, Function.update_self]
    rw [BitVec.and_or_distrib_right, hmask, BitVec.or_zero]
  · simp [getBit, fetchOr, hword]

theorem support_fetchOr {b : Bitmap threads} {i : Nat} (t : Fin threads) (hi : i < b.size) :
    (b.fetchOr i).1.support = insert i b.support :=
  support_setBit t hi

/-- A fetch-and-or adds a bit exactly when it finds it unset. -/
theorem card_support_fetchOr {b : Bitmap threads} {i : Nat} (t : Fin threads) (hi : i < b.size) :
    (b.fetchOr i).1.support.card = b.support.card + if (b.fetchOr i).2 then 1 else 0 := by
  rw [support_fetchOr t hi]
  by_cases hactive : b.Active i
  · have hlost : ¬ (b.fetchOr i).2 = true := fun hwon => (fetchOr_snd b i).1 hwon hactive
    rw [if_neg hlost, Finset.insert_eq_of_mem (mem_support.2 ⟨hi, hactive⟩)]
    rfl
  · have hnew : i ∉ b.support := fun hmem => hactive (mem_support.1 hmem).2
    rw [if_pos ((fetchOr_snd b i).2 hactive), Finset.card_insert_of_notMem hnew]

/-! ### Histories -/

namespace History

variable {h h' : History threads}

/-- The number of threads whose call has won a bit and not counted it. -/
def winners (h : History threads) : Nat :=
  ∑ t, if (h.pending t).map Prod.snd = some true then 1 else 0

/-- The number of threads whose call has won bit `i`. -/
def winnersOf (h : History threads) (i : Nat) : Nat :=
  ∑ t, if h.pending t = some (i, true) then 1 else 0

/-- How often `set_bit(i)` has returned true since the last `clear`, or is about to. -/
def wins (h : History threads) (i : Nat) : Nat := h.returns.count (i, true) + h.winnersOf i

/-- The invariant of a history. -/
structure Kept (h : History threads) : Prop where
  size_lt : h.b.size < 2 ^ 32
  balance : h.b.numSet + BitVec.ofNat 32 h.winners = BitVec.ofNat 32 h.b.support.card
  untouched : h.untouched = true → h.Idle ∧ (∀ t, h.b.frontier_size t = 0#32) ∧ h.returns = [] ∧
    h.filled = false ∧ ∀ i < h.b.size, ¬ h.b.Active i
  filled : h.filled = true → ∀ i < h.b.size, h.b.Active i
  won_once : ∀ i < h.b.size, h.wins i = if h.b.Active i ∧ h.filled = false then 1 else 0
  called :
    ∀ i r, (∃ t, h.pending t = some (i, r)) ∨ (i, r) ∈ h.returns → i < h.b.size ∧ h.b.Active i

theorem Idle.winners (hidle : h.Idle) : h.winners = 0 := by
  refine Finset.sum_eq_zero fun t _ => ?_
  rw [hidle t]
  rfl

theorem Idle.winnersOf (hidle : h.Idle) (i : Nat) : h.winnersOf i = 0 := by
  refine Finset.sum_eq_zero fun t _ => ?_
  rw [hidle t]
  rfl

/-- The call of one thread changes. -/
theorem sum_update_pending (g : Option (Nat × Bool) → Nat)
    (pending : Fin threads → Option (Nat × Bool)) (t : Fin threads) (call : Option (Nat × Bool)) :
    ∑ u, g (Function.update pending t call u) + g (pending t) = ∑ u, g (pending u) + g call := by
  have hsum := sum_update_add (g ∘ pending) t (g call)
  rwa [← Function.comp_update] at hsum

theorem pending_update {pending : Fin threads → Option (Nat × Bool)} {t u : Fin threads}
    {call : Option (Nat × Bool)} {c : Nat × Bool} (hu : Function.update pending t call u = some c) :
    call = some c ∨ pending u = some c := by
  by_cases hut : u = t
  · subst hut
    rw [Function.update_self] at hu
    exact Or.inl hu
  · rw [Function.update_of_ne hut] at hu
    exact Or.inr hu

/-- A state in which no call of `set_bit` has been made since the last `clear`. -/
theorem Idle.kept (hidle : h.Idle) (hsize : h.b.size < 2 ^ 32) (hreturns : h.returns = [])
    (hcounted : h.b.Counted)
    (huntouched : h.untouched = true → (∀ t, h.b.frontier_size t = 0#32) ∧ h.filled = false)
    (hbits : ∀ i < h.b.size, h.b.Active i ↔ h.filled = true) : Kept h where
  size_lt := hsize
  balance := by
    rw [hidle.winners, BitVec.add_zero]
    exact hcounted
  untouched := fun hyes => by
    obtain ⟨hzero, hfilled⟩ := huntouched hyes
    refine ⟨hidle, hzero, hreturns, hfilled, fun i hi hactive => ?_⟩
    rw [(hbits i hi).1 hactive] at hfilled
    cases hfilled
  filled := fun hyes i hi => (hbits i hi).2 hyes
  won_once := fun i hi => by
    rw [wins, hreturns, hidle.winnersOf i, if_neg]
    · rfl
    · rintro ⟨hactive, hfilled⟩
      rw [(hbits i hi).1 hactive] at hfilled
      cases hfilled
  called := by
    rintro i r (⟨t, ht⟩ | hr)
    · rw [hidle t] at ht
      cases ht
    · rw [hreturns] at hr
      exact absurd hr List.not_mem_nil

theorem kept_start {size : Nat} (hsize : size < 2 ^ 32) : Kept (start size : History threads) := by
  have hidle : (start size : History threads).Idle := fun t => rfl
  refine hidle.kept hsize rfl (counted_fresh size) (fun _ => ⟨fun t => rfl, rfl⟩) fun i _ => ?_
  exact ⟨fun hactive => absurd hactive (not_active_fresh size i), nofun⟩

/-- `clear` -/
theorem Kept.clear (hk : Kept h) (hstep : h.step .clear = some h') : Kept h' := by
  obtain ⟨hidle, hstep⟩ := Option.ite_none_right_eq_some.1 hstep
  obtain rfl := Option.some.inj hstep
  refine Idle.kept hidle hk.size_lt rfl (counted_clear h.b) (fun _ => ⟨fun t => rfl, rfl⟩)
    fun i hi => ?_
  exact ⟨fun hactive => absurd hactive (not_active_clear hi), nofun⟩

/-- `set_all` -/
theorem Kept.setAll {t : Fin threads} (hk : Kept h) (hstep : h.step (.setAll t) = some h') :
    Kept h' := by
  obtain ⟨⟨hidle, huntouched⟩, hstep⟩ := Option.ite_none_right_eq_some.1 hstep
  obtain rfl := Option.some.inj hstep
  obtain ⟨-, hzero, hreturns, -, -⟩ := hk.untouched huntouched
  refine Idle.kept hidle hk.size_lt hreturns (counted_setAll t hzero) nofun fun i hi => ?_
  exact iff_of_true (active_setAll t hi) rfl

/-- The fetch-and-or of `set_bit`. -/
theorem Kept.fetchOr {t : Fin threads} {i : Nat} (hk : Kept h)
    (hstep : h.step (.fetchOr t i) = some h') :
    Kept h' := by
  obtain ⟨⟨hnone, hi⟩, hstep⟩ := Option.ite_none_right_eq_some.1 hstep
  obtain rfl := Option.some.inj hstep
  have hactive := active_fetchOr h.b t i
  have hwon := fetchOr_snd h.b i
  refine ⟨hk.size_lt, ?_, nofun, fun hfilled j hj => ?_, fun j hj => ?_, ?_⟩
  · have hwinners := sum_update_pending (fun call => if call.map Prod.snd = some true then 1 else 0)
      h.pending t (some (i, (h.b.fetchOr i).2))
    simp only [hnone, Option.map_none, Option.map_some, Option.some.injEq, reduceCtorEq, if_false,
      Nat.add_zero] at hwinners
    have hbalance := hk.balance
    simp only [winners] at hbalance ⊢
    rw [hwinners, card_support_fetchOr t hi, numSet_fetchOr, BitVec.ofNat_add, BitVec.ofNat_add,
      ← BitVec.add_assoc, hbalance]
  · exact (hactive j).2 (Or.inr (hk.filled hfilled j hj))
  · have hwins := hk.won_once j hj
    have hwinnersOf := sum_update_pending (fun call => if call = some (j, true) then 1 else 0)
      h.pending t (some (i, (h.b.fetchOr i).2))
    simp only [hnone, Option.some.injEq, Prod.mk.injEq, reduceCtorEq, if_false,
      Nat.add_zero] at hwinnersOf
    simp only [wins, winnersOf] at hwins ⊢
    rw [hwinnersOf, ← Nat.add_assoc, hwins]
    by_cases hji : j = i
    · subst hji
      by_cases hset : h.b.Active j
      · have hlost : ¬ (h.b.fetchOr j).2 = true := fun hyes => hwon.1 hyes hset
        simp [hactive, hset, hlost]
      · have hfilled : h.filled = false := by
          by_contra hyes
          exact hset (hk.filled (by simpa using hyes) j hj)
        simp [hactive, hset, hwon.2 hset, hfilled]
    · simp [hactive, hji, Ne.symm hji]
  · rintro j r (⟨u, hu⟩ | hr)
    · rcases pending_update hu with hnew | hu
      · obtain ⟨rfl, -⟩ := Prod.mk.inj (Option.some.inj hnew)
        exact ⟨hi, (hactive i).2 (Or.inl rfl)⟩
      · obtain ⟨hj, hold⟩ := hk.called j r (Or.inl ⟨u, hu⟩)
        exact ⟨hj, (hactive j).2 (Or.inr hold)⟩
    · obtain ⟨hj, hold⟩ := hk.called j r (Or.inr hr)
      exact ⟨hj, (hactive j).2 (Or.inr hold)⟩

/-- The rest of `set_bit`. -/
theorem step_return_inv {t : Fin threads} (hstep : h.step (.return_ t) = some h') :
    ∃ i was_unset, h.pending t = some (i, was_unset) ∧
      h' = { h with
        b := if was_unset then h.b.increment t else h.b
        pending := Function.update h.pending t none
        returns := h.returns ++ [(i, was_unset)] } := by
  simp only [step] at hstep
  split at hstep
  · cases hstep
  · rename_i i was_unset hcall
    exact ⟨i, was_unset, hcall, (Option.some.inj hstep).symm⟩

/-- Counting leaves the content alone. -/
theorem ite_increment (b : Bitmap threads) (t : Fin threads) (won : Bool) :
    (if won then b.increment t else b).size = b.size ∧
      (∀ i, (if won then b.increment t else b).getBit i = b.getBit i) ∧
      (if won then b.increment t else b).support = b.support ∧
      (if won then b.increment t else b).numSet =
        b.numSet + BitVec.ofNat 32 (if won then 1 else 0) := by
  cases won with
  | false => exact ⟨rfl, fun i => rfl, rfl, (BitVec.add_zero _).symm⟩
  | true => exact ⟨rfl, fun i => rfl, rfl, numSet_increment b t⟩

theorem Kept.return_ {t : Fin threads} (hk : Kept h) (hstep : h.step (.return_ t) = some h') :
    Kept h' := by
  obtain ⟨i, won, hcall, rfl⟩ := step_return_inv hstep
  obtain ⟨hsize, hbits, hsupport, hnumSet⟩ := ite_increment h.b t won
  have hactive : ∀ j, (if won then h.b.increment t else h.b).Active j ↔ h.b.Active j := by
    intro j
    rw [Active, Active, hbits j]
  refine ⟨?_, ?_, fun huntouched => ?_, fun hfilled j hj => ?_, fun j hj => ?_, ?_⟩
  · rw [hsize]
    exact hk.size_lt
  · have hwinners := sum_update_pending (fun call => if call.map Prod.snd = some true then 1 else 0)
      h.pending t none
    simp only [hcall, Option.map_none, Option.map_some, Option.some.injEq, reduceCtorEq, if_false,
      Nat.add_zero] at hwinners
    have hbalance := hk.balance
    simp only [winners] at hbalance ⊢
    rw [hnumSet, hsupport, ← hbalance, ← hwinners, BitVec.ofNat_add]
    ring
  · have hidle := (hk.untouched huntouched).1 t
    rw [hcall] at hidle
    cases hidle
  · rw [hsize] at hj
    exact (hactive j).2 (hk.filled hfilled j hj)
  · rw [hsize] at hj
    have hwins := hk.won_once j hj
    have hwinnersOf := sum_update_pending (fun call => if call = some (j, true) then 1 else 0)
      h.pending t none
    simp only [hcall, Option.some.injEq, Prod.mk.injEq, reduceCtorEq, if_false,
      Nat.add_zero] at hwinnersOf
    simp only [wins, winnersOf] at hwins ⊢
    simp only [hactive j]
    rw [← hwins, ← hwinnersOf, List.count_append, List.count_singleton]
    simp only [beq_iff_eq, Prod.mk.injEq]
    omega
  · rintro j r hcalled
    rw [hsize, hactive j]
    rcases hcalled with ⟨u, hu⟩ | hr
    · rcases pending_update hu with hnew | hu
      · cases hnew
      · exact hk.called j r (Or.inl ⟨u, hu⟩)
    · rcases List.mem_append.1 hr with hr | hr
      · exact hk.called j r (Or.inr hr)
      · obtain ⟨rfl, rfl⟩ := Prod.mk.inj (List.mem_singleton.1 hr)
        exact hk.called j r (Or.inl ⟨t, hcall⟩)

/-- Every operation keeps the invariant. -/
theorem Kept.step {op : Op threads} (hk : Kept h) (hstep : h.step op = some h') : Kept h' := by
  cases op with
  | clear => exact hk.clear hstep
  | setAll t => exact hk.setAll hstep
  | fetchOr t i => exact hk.fetchOr hstep
  | return_ t => exact hk.return_ hstep

theorem Kept.of_reachable {past : List (Op threads)} (hr : (history threads).Reachable (h, past)) :
    Kept h := by
  apply TransitionSystem.Reachable.induct
    (I := fun p : History threads × List (Op threads) => Kept p.1) _ _ hr
  · rintro ⟨h, past⟩ ⟨⟨size, hsize, rfl⟩, -⟩
    exact kept_start hsize
  · rintro ⟨h, past⟩ ⟨h', past'⟩ - hk ⟨op, hstep, -⟩
    exact hk.step hstep

/-- What must hold of a bitmap in use. -/
structure Agrees (h : History threads) : Prop where
  /-- With no call under way the count is the number of bits set. -/
  numSet :
    h.Idle → h.b.numSet.toNat = ((Finset.range h.b.size).filter fun i => h.b.getBit i ≠ 0#64).card
  isEmpty : h.Idle → (h.b.isEmpty = true ↔ ∀ i < h.b.size, h.b.getBit i = 0#64)
  /-- With calls under way it lacks those that have set their bit and not counted it. -/
  counting : h.b.numSet.toNat + h.winners =
    ((Finset.range h.b.size).filter fun i => h.b.getBit i ≠ 0#64).card
  /-- Of the calls for a bit that was not set by `set_all`, one has returned true, or is about
      to. -/
  won : ∀ i r, (∃ t, h.pending t = some (i, r)) ∨ (i, r) ∈ h.returns →
    h.wins i = if h.filled then 0 else 1
  /-- A part of `set_bit(i)` leaves every other index unchanged. -/
  others : ∀ t i h', h.step (.fetchOr t i) = some h' → ∀ j, j ≠ i → h'.b.getBit j = h.b.getBit j
  counted : ∀ t h', h.step (.return_ t) = some h' → ∀ j, h'.b.getBit j = h.b.getBit j

theorem Kept.counting (hk : Kept h) : h.b.numSet.toNat + h.winners = h.b.support.card := by
  have hsum : h.winners = ∑ i ∈ h.b.support, h.winnersOf i := by
    rw [winners]
    simp only [winnersOf]
    rw [Finset.sum_comm]
    refine Finset.sum_congr rfl fun t _ => ?_
    rcases hcall : h.pending t with _ | ⟨i, won⟩
    · simp
    · obtain ⟨hi, hactive⟩ := hk.called i won (Or.inl ⟨t, hcall⟩)
      have hmem : i ∈ h.b.support := mem_support.2 ⟨hi, hactive⟩
      cases won <;> simp [hmem]
  have hwinners : h.winners ≤ h.b.support.card := by
    rw [hsum, Finset.card_eq_sum_ones]
    refine Finset.sum_le_sum fun i hi => ?_
    have hwins := hk.won_once i (mem_support.1 hi).1
    rw [wins] at hwins
    split_ifs at hwins <;> omega
  have hcard : h.b.support.card ≤ h.b.size := by
    have hle : h.b.support.card ≤ (Finset.range h.b.size).card := Finset.card_filter_le _ _
    rwa [Finset.card_range] at hle
  have hsize := hk.size_lt
  have hbalance := congrArg BitVec.toNat hk.balance
  rw [BitVec.toNat_add, BitVec.toNat_ofNat, BitVec.toNat_ofNat] at hbalance
  have hlt := h.b.numSet.isLt
  omega

theorem Kept.counted (hk : Kept h) (hidle : h.Idle) : h.b.Counted := by
  have hbalance := hk.balance
  rwa [hidle.winners, BitVec.add_zero] at hbalance

theorem Kept.won (hk : Kept h) {i : Nat} {r : Bool}
    (hcalled : (∃ t, h.pending t = some (i, r)) ∨ (i, r) ∈ h.returns) :
    h.wins i = if h.filled then 0 else 1 := by
  obtain ⟨hi, hactive⟩ := hk.called i r hcalled
  rw [hk.won_once i hi]
  cases h.filled <;> simp [hactive]

theorem getBit_return {t : Fin threads} (hstep : h.step (.return_ t) = some h') (j : Nat) :
    h'.b.getBit j = h.b.getBit j := by
  obtain ⟨i, won, -, rfl⟩ := step_return_inv hstep
  exact (ite_increment h.b t won).2.1 j

theorem getBit_fetchOr {t : Fin threads} {i j : Nat} (hstep : h.step (.fetchOr t i) = some h')
    (hne : j ≠ i) : h'.b.getBit j = h.b.getBit j := by
  obtain ⟨-, hstep⟩ := Option.ite_none_right_eq_some.1 hstep
  obtain rfl := Option.some.inj hstep
  exact getBit_fetchOr_of_ne h.b hne

end History

/-- Count and content agree after every history. -/
theorem bitmap_count_and_content (threads : Nat) (h : History threads) (past : List (Op threads))
    (hr : (history threads).Reachable (h, past)) : h.Agrees := by
  have hk := History.Kept.of_reachable hr
  refine ⟨fun hidle => ?_, fun hidle => ?_, hk.counting, fun i r hcalled => hk.won hcalled,
    fun t i h' hstep j hne => History.getBit_fetchOr hstep hne,
    fun t h' hstep j => History.getBit_return hstep j⟩
  · have hcounting := hk.counting
    rwa [hidle.winners, Nat.add_zero] at hcounting
  · rw [isEmpty_iff (hk.counted hidle) hk.size_lt]
    simp only [Active, not_not]

/-- Two threads set bit 3 of eight, and the one that loses the race returns first. -/
def raced : List (Op 2) := [.fetchOr 0 3, .fetchOr 1 3, .return_ 1, .return_ 0]

theorem bitmap_count_and_content_raced :
    ∃ h : History 2, h.returns = [(3, false), (3, true)] ∧ (history 2).Reachable (h, raced) ∧
    h.Agrees := by
  have hrun : ((raced.foldlM History.step (History.start 8)).any
      fun h => decide (h.returns = [(3, false), (3, true)])) = true := by
    decide +kernel
  obtain ⟨h, hh, hreturns⟩ := (Option.any_eq_true _ _).1 hrun
  have hreachable : (history 2).Reachable (h, [] ++ raced) :=
    .of_foldlM raced (.of_init ⟨⟨8, by decide, rfl⟩, rfl⟩) hh
  exact ⟨h, of_decide_eq_true hreturns, hreachable, bitmap_count_and_content 2 h raced hreachable⟩

end FamGraph.Bitmap
