/-
Module: FamGraph.Proofs.MakeWRs
Layer: Proofs
Purpose: What `make_WRs` builds. The requests are those of the intervals, one behind the other in
  the RDMA area; but `sg_list` is taken while the vector still grows, so it names the returned
  vector's own entry exactly if no later `emplace_back` has moved the elements. A length in bytes is
  a `uint32_t`.
Trusted boundary: none
Main exports: words, workRequest, Made, made_foldl, makeWRs_item, OwnEntries, own_entries_iff
-/
import FamGraph.Core.WorkRequests

namespace FamGraph.Edgemap

/-- The number of words of some intervals. -/
def words (vec : List VInterval) : Nat := (vec.map VInterval.length).sum

@[simp] theorem words_nil : words [] = 0 := rfl

@[simp] theorem words_cons (i : VInterval) (vec : List VInterval) :
    words (i :: vec) = i.length + words vec :=
  List.sum_cons

@[simp] theorem words_append (vec vec' : List VInterval) :
    words (vec ++ vec') = words vec + words vec' := by
  rw [words, List.map_append, List.sum_append]
  rfl

/-- The work request of an interval whose words go to `buffer`. -/
def workRequest (c : ClientContext) (buffer : Nat) (interval : VInterval) (sg_list : Slot) :
    WR where
  wr :=
    { signaled := false
      remote_addr := c.peer_addr + (c.edge_offset interval.v + interval.start) * 4
      rkey := c.peer_rkey
      sg_list := some sg_list
      num_sge := 1
      next := none }
  sge := { addr := buffer, length := interval.length * 4 % 2 ^ 32, lkey := c.lkey }

/-- The variables of `make_WRs` after some intervals. Each request points into the buffer that was
    in use when it was made, the first one into the first. -/
structure Made (policy : GrowthPolicy) (c : ClientContext) (fresh RDMA_area : Nat)
    (vec : List VInterval) (s : MakeState) : Prop where
  length : s.WRs.items.length = vec.length
  buffer : s.buffer = RDMA_area + words vec
  grown : vec ≠ [] → GrowableVector.Grown policy fresh s.fresh s.WRs
  item : ∀ i (h : i < vec.length), ∃ id, fresh ≤ id ∧ id ≤ s.WRs.id ∧ (i = 0 → id = fresh) ∧
    s.WRs.items[i]? = some (workRequest c (RDMA_area + words (vec.take i)) vec[i] ⟨id, i⟩)

section Made

variable {policy : GrowthPolicy} {c : ClientContext} {fresh RDMA_area : Nat} {vec : List VInterval}
  {interval : VInterval} {s : MakeState}

theorem items_makeStep : (makeStep policy c s interval).WRs.items = s.WRs.items ++
    [workRequest c s.buffer interval
      ⟨(makeStep policy c s interval).WRs.id, s.WRs.items.length⟩] := by
  simp only [makeStep, GrowableVector.items_emplaceBack_setBack, GrowableVector.back_emplaceBack]
  rfl

theorem grown_makeStep (h : GrowableVector.Grown policy fresh s.fresh s.WRs) :
    GrowableVector.Grown policy fresh (makeStep policy c s interval).fresh
      (makeStep policy c s interval).WRs :=
  h.emplaceBack.set _

/-- One more interval. -/
theorem Made.push (h : Made policy c fresh RDMA_area vec s)
    (hgrown : GrowableVector.Grown policy fresh (makeStep policy c s interval).fresh
      (makeStep policy c s interval).WRs)
    (hid : vec ≠ [] → s.WRs.id ≤ (makeStep policy c s interval).WRs.id)
    (hfirst : vec = [] → (makeStep policy c s interval).WRs.id = fresh) :
    Made policy c fresh RDMA_area (vec ++ [interval]) (makeStep policy c s interval) where
  length := by
    rw [items_makeStep, List.length_append, List.length_append, h.length]
    rfl
  buffer := by
    rw [words_append, words_cons, words_nil, Nat.add_zero, ← Nat.add_assoc, ← h.buffer]
    rfl
  grown := fun _ => hgrown
  item := by
    intro i hi
    rw [List.length_append, List.length_singleton] at hi
    rcases Nat.lt_succ_iff_lt_or_eq.1 hi with hlt | rfl
    · obtain ⟨id, hge, hle, hzero, hget⟩ := h.item i hlt
      have hne : vec ≠ [] := List.ne_nil_of_length_pos (Nat.lt_of_le_of_lt (Nat.zero_le i) hlt)
      refine ⟨id, hge, Nat.le_trans hle (hid hne), hzero, ?_⟩
      rw [items_makeStep, List.getElem?_append_left (by rw [h.length]; exact hlt), hget,
        List.take_append_of_le_length (Nat.le_of_lt hlt), List.getElem_append_left hlt]
    · refine ⟨(makeStep policy c s interval).WRs.id, hgrown.first_le, Nat.le_refl _,
        fun hzero => ?_, ?_⟩
      · exact hfirst (List.length_eq_zero_iff.1 hzero)
      · rw [items_makeStep, List.getElem?_append_right (Nat.le_of_eq h.length), h.length,
          Nat.sub_self, List.take_left, List.getElem_concat_length rfl, h.buffer]
        rfl

theorem made_foldl (policy : GrowthPolicy) (c : ClientContext) (fresh RDMA_area : Nat)
    (vec : List VInterval) :
    Made policy c fresh RDMA_area vec
      (vec.foldl (makeStep policy c)
        { fresh := fresh, WRs := .empty fresh, buffer := RDMA_area }) := by
  induction vec using List.reverseRecOn with
  | nil => exact ⟨rfl, rfl, fun h => absurd rfl h, fun i hi => absurd hi (Nat.not_lt_zero i)⟩
  | append_singleton vec interval ih =>
      rw [List.foldl_append, List.foldl_cons, List.foldl_nil]
      rcases List.eq_nil_or_concat' vec with rfl | ⟨pre, last, rfl⟩
      · exact ih.push ((GrowableVector.grown_first policy fresh fresh WR.zero).set _)
          (fun hne => absurd rfl hne) (fun _ => rfl)
      · have hne : pre ++ [last] ≠ [] := List.append_ne_nil_of_right_ne_nil _ (List.cons_ne_nil _ _)
        exact ih.push (grown_makeStep (ih.grown hne)) (fun _ => (ih.grown hne).id_le_emplaceBack)
          (fun hnil => absurd hnil hne)

end Made

section MakeWRs

variable (policy : GrowthPolicy) (c : ClientContext) (fresh RDMA_area : Nat) (vec : List VInterval)

@[simp] theorem length_makeWRs : (makeWRs policy c fresh vec RDMA_area).items.length = vec.length :=
  (made_foldl policy c fresh RDMA_area vec).length

/-- The work request of each interval, apart from its `sg_list`. -/
theorem makeWRs_item {i : Nat} (h : i < (makeWRs policy c fresh vec RDMA_area).items.length)
    (h' : i < vec.length) : ∃ sg_list, (makeWRs policy c fresh vec RDMA_area).items[i] =
      workRequest c (RDMA_area + words (vec.take i)) vec[i] sg_list := by
  obtain ⟨id, -, -, -, hitem⟩ := (made_foldl policy c fresh RDMA_area vec).item i h'
  exact ⟨⟨id, i⟩, Option.some.inj ((List.getElem?_eq_getElem h).symm.trans hitem)⟩

/-- The work requests name the scatter entries stored beside them, and these are the intervals'. -/
structure OwnEntries (RDMA_area : Nat) (vec : List VInterval) (WRs : GrowableVector WR) : Prop where
  length : WRs.items.length = vec.length
  sg_list : ∀ i (h : i < WRs.items.length), WRs.items[i].wr.sg_list = some (WRs.slot i)
  addr : ∀ i (h : i < WRs.items.length), WRs.items[i].sge.addr = RDMA_area + words (vec.take i)
  bytes : ∀ i (h : i < WRs.items.length) (h' : i < vec.length),
    WRs.items[i].sge.length = 4 * vec[i].length

/-- `make_WRs` returns work requests that name their own entries exactly if the first buffer holds
    them all, and no interval's length in bytes overflows. -/
theorem own_entries_iff : OwnEntries RDMA_area vec (makeWRs policy c fresh vec RDMA_area) ↔
    vec.length ≤ policy.next 0 ∧ ∀ interval ∈ vec, interval.length < 2 ^ 30 := by
  have hmade := made_foldl policy c fresh RDMA_area vec
  have hitem :
      ∀ i (h : i < (makeWRs policy c fresh vec RDMA_area).items.length) (h' : i < vec.length), ∃ id,
        fresh ≤ id ∧ id ≤ (makeWRs policy c fresh vec RDMA_area).id ∧ (i = 0 → id = fresh) ∧
        (makeWRs policy c fresh vec RDMA_area).items[i] =
          workRequest c (RDMA_area + words (vec.take i)) vec[i] ⟨id, i⟩ := by
    intro i h h'
    obtain ⟨id, hge, hle, hzero, hget⟩ := hmade.item i h'
    exact ⟨id, hge, hle, hzero, Option.some.inj ((List.getElem?_eq_getElem h).symm.trans hget)⟩
  have hlength := length_makeWRs policy c fresh RDMA_area vec
  constructor
  · intro hown
    constructor
    · -- The first request still names the first buffer.
      by_cases hnil : vec = []
      · rw [hnil]
        exact Nat.zero_le _
      · have hpos : 0 < vec.length := List.length_pos_of_ne_nil hnil
        obtain ⟨id, -, -, hzero, hget⟩ := hitem 0 (by rw [hlength]; exact hpos) hpos
        have hslot := hown.sg_list 0 (by rw [hlength]; exact hpos)
        rw [hget] at hslot
        have hid : id = (makeWRs policy c fresh vec RDMA_area).id :=
          congrArg Slot.id (Option.some.inj hslot)
        have hfirst := (hmade.grown hnil).id_eq_iff.1 (hid.symm.trans (hzero rfl))
        rwa [hmade.length] at hfirst
    · intro interval hmem
      obtain ⟨i, hi, rfl⟩ := List.getElem_of_mem hmem
      obtain ⟨id, -, -, -, hget⟩ := hitem i (by rw [hlength]; exact hi) hi
      have hbytes := hown.bytes i (by rw [hlength]; exact hi) hi
      rw [hget] at hbytes
      simp only [workRequest] at hbytes
      omega
  · rintro ⟨hfits, hshort⟩
    refine ⟨hlength, fun i h => ?_, fun i h => ?_, fun i h h' => ?_⟩
    · have hi : i < vec.length := hlength ▸ h
      have hnil : vec ≠ [] := List.ne_nil_of_length_pos (Nat.lt_of_le_of_lt (Nat.zero_le i) hi)
      have hfirst : (makeWRs policy c fresh vec RDMA_area).id = fresh :=
        (hmade.grown hnil).id_eq_iff.2 (by rw [hmade.length]; exact hfits)
      obtain ⟨id, hge, hle, -, hget⟩ := hitem i h hi
      obtain rfl : id = fresh := by omega
      rw [hget, GrowableVector.slot, hfirst]
      rfl
    · obtain ⟨id, -, -, -, hget⟩ := hitem i h (hlength ▸ h)
      rw [hget]
      rfl
    · obtain ⟨id, -, -, -, hget⟩ := hitem i h h'
      have hlt := hshort vec[i] (List.getElem_mem h')
      rw [hget]
      simp only [workRequest]
      omega

end MakeWRs

/-- Where the capacity doubles from 1 on, the second interval moves the first one's entry. -/
theorem second_interval_moves : ¬ OwnEntries 0 [⟨0, 1, 0, 1⟩, ⟨2, 1, 0, 1⟩]
    (makeWRs .doubling ⟨3, 2, fun v => if v = 0 then 0 else 1, 4096, 7, 5, fun _ => 0⟩ 0
      [⟨0, 1, 0, 1⟩, ⟨2, 1, 0, 1⟩] 0) := by
  intro h
  exact absurd (h.sg_list 0 (by decide)) (by decide)

end FamGraph.Edgemap
