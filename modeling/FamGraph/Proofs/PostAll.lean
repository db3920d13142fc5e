/-
Module: FamGraph.Proofs.PostAll
Layer: Proofs
Purpose: How `post_all` cuts the work requests into chains. The loop has linked every request it has
  passed to the next one or ended a chain with it; the head pointer stands at the beginning of the
  block the loop is in, a multiple of the window size. So a chain posted at a block's end is that
  block, for any window size, and a refused chain only cuts the posting short.
Trusted boundary: none
Main exports: entry, IsBlock, chain_eq, Linking, PostedInChains, post_all_chains
-/
import FamGraph.Core.WorkRequests

namespace FamGraph.Edgemap

/-! ### The requests as the loop leaves them -/

section Entries

variable (W : Nat) (WRs : GrowableVector WR)

/-- The loop ends a chain with request `i`. -/
def EndsChain (i : Nat) : Prop := i % W = W - 1 ∨ i = WRs.items.length - 1

instance : DecidablePred (EndsChain W WRs) := fun i =>
  inferInstanceAs (Decidable (i % W = W - 1 ∨ i = WRs.items.length - 1))

/-- Request `i` when the loop has passed it. -/
def link (i : Nat) (r : WR) : WR :=
  if EndsChain W WRs i then { r with wr := { r.wr with signaled := true, next := none } }
  else { r with wr := { r.wr with next := some (WRs.slot (i + 1)) } }

/-- Request `i` as it is posted, with its place. -/
def entry (i : Nat) : Slot × WR := (WRs.slot i, link W WRs i ((WRs.items[i]?).getD .zero))

/-- A chain of the requests from `head` to `last`, of which no other ends a chain. -/
structure IsBlock (head last : Nat) (posted : List (Slot × WR)) : Prop where
  le : head ≤ last
  length_le : last + 1 - head ≤ W
  lt : last < WRs.items.length
  ends : EndsChain W WRs last
  inner : ∀ j, head ≤ j → j < last → ¬ EndsChain W WRs j
  posted : posted = (List.range' head (last + 1 - head)).map (entry W WRs)

/-- The chains so far, which hold the requests up to `head`. -/
structure Blocks (head : Nat) (chains : List (List (Slot × WR))) : Prop where
  flatten : chains.flatten = (List.range head).map (entry W WRs)
  block : ∀ posted ∈ chains, ∃ head last, IsBlock W WRs head last posted

end Entries

section Chains

variable {W : Nat} {WRs : GrowableVector WR}

/-- The chain from one place to another, each linked to the next. -/
theorem chain_eq {vector : GrowableVector WR} {head last fuel : Nat} {f : Nat → WR}
    (hle : head ≤ last) (hget : ∀ j, head ≤ j → j ≤ last → vector.items[j]? = some (f j))
    (hnext : ∀ j, head ≤ j → j < last → (f j).wr.next = some (vector.slot (j + 1)))
    (hlast : (f last).wr.next = none) (hfuel : last + 1 - head < fuel) :
    chain vector fuel (some (vector.slot head)) =
      (List.range' head (last + 1 - head)).map fun j => (vector.slot j, f j) := by
  induction hn : last - head generalizing head fuel with
  | zero =>
      obtain rfl : head = last := by omega
      obtain ⟨fuel, rfl⟩ : ∃ more, fuel = more + 2 := ⟨fuel - 2, by omega⟩
      rw [chain, GrowableVector.at?_slot, hget head (Nat.le_refl _) (Nat.le_refl _),
        Nat.add_sub_cancel_left]
      simp only [hlast, chain]
      rfl
  | succ n ih =>
      obtain ⟨fuel, rfl⟩ : ∃ more, fuel = more + 1 := ⟨fuel - 1, by omega⟩
      have hrest := @ih (head + 1) fuel (by omega) (fun j hj => hget j (by omega))
        (fun j hj => hnext j (by omega)) (by omega) (by omega)
      have hlength : last + 1 - head = last + 1 - (head + 1) + 1 := by omega
      rw [chain, GrowableVector.at?_slot, hget head (Nat.le_refl _) hle, hlength, List.range'_succ,
        List.map_cons, ← hrest, ← hnext head (Nat.le_refl _) (by omega)]

theorem mod_of_dvd {head m : Nat} (hd : W ∣ head) (hm : m < W) : (head + m) % W = m := by
  obtain ⟨q, rfl⟩ := hd
  rw [Nat.mul_add_mod, Nat.mod_eq_of_lt hm]

/-- One more block. -/
theorem Blocks.concat {head last : Nat} {chains : List (List (Slot × WR))}
    {posted : List (Slot × WR)} (h : Blocks W WRs head chains)
    (hposted : IsBlock W WRs head last posted) :
    Blocks W WRs (last + 1) (chains ++ [posted]) where
  flatten := by
    have hle := hposted.le
    have hsplit :
        List.range (last + 1) = List.range head ++ List.range' head (last + 1 - head) := by
      have hsum : last + 1 = head + (last + 1 - head) := by omega
      rw [List.range_eq_range', List.range_eq_range', hsum, ← List.range'_append_1, Nat.zero_add]
      congr 2
      omega
    rw [List.flatten_append, List.flatten_singleton, h.flatten, hposted.posted, hsplit,
      List.map_append]
  block := by
    intro p hp
    rcases List.mem_append.1 hp with hp | hp
    · exact h.block p hp
    · rw [List.mem_singleton.1 hp]
      exact ⟨head, last, hposted⟩

/-- What the loop of `post_all` has done before index `i`, no chain being refused. -/
structure Linking (W : Nat) (WRs : GrowableVector WR) (i : Nat) (s : Posting) : Prop where
  id : s.WRs.id = WRs.id
  length : s.WRs.items.length = WRs.items.length
  passed : ∀ j < i, s.WRs.items[j]? = (WRs.items[j]?).map (link W WRs j)
  ahead : ∀ j, i ≤ j → s.WRs.items[j]? = WRs.items[j]?
  died : s.died = false
  running :
    i < WRs.items.length →
    ∃ head m, i = head + m ∧ m < W ∧ W ∣ head ∧ s.wr = some (WRs.slot head) ∧
    Blocks W WRs head s.chains ∧ ∀ posted ∈ s.chains, posted.length = W
  done :
    i = WRs.items.length → Blocks W WRs i s.chains ∧ ∀ posted ∈ s.chains.dropLast, posted.length = W

section Turn

variable {i : Nat} {s : Posting} (h : Linking W WRs i s) (hi : i < WRs.items.length)

include h hi

theorem Linking.here : s.WRs.items[i]? = some WRs.items[i] := by
  rw [h.ahead i (Nat.le_refl i), List.getElem?_eq_getElem hi]

/-- The vector with request `i` linked, too. -/
theorem Linking.set_passed : ∀ j < i + 1,
    (s.WRs.set i (link W WRs i WRs.items[i])).items[j]? = (WRs.items[j]?).map (link W WRs j) := by
  intro j hj
  rw [GrowableVector.items_set]
  rcases Nat.lt_succ_iff_lt_or_eq.1 hj with hlt | rfl
  · rw [List.getElem?_set_ne (Nat.ne_of_gt hlt), h.passed j hlt]
  · rw [List.getElem?_set_self (by rw [h.length]; exact hi), List.getElem?_eq_getElem hi,
      Option.map_some]

omit hi in
theorem Linking.set_ahead (r : WR) :
    ∀ j, i + 1 ≤ j → (s.WRs.set i r).items[j]? = WRs.items[j]? := by
  intro j hj
  rw [GrowableVector.items_set, List.getElem?_set_ne (by omega), h.ahead j (by omega)]

/-- What is posted at the end of a block. -/
theorem Linking.posted {head m : Nat} (hm : i = head + m) (hlt : m < W) (hd : W ∣ head)
    (hends : EndsChain W WRs i) :
    IsBlock W WRs head i (chain (s.WRs.set i (link W WRs i WRs.items[i])) (WRs.items.length + 1)
      (some (WRs.slot head))) := by
  have hinner : ∀ j, head ≤ j → j < i → ¬ EndsChain W WRs j := by
    rintro j hj hji (hmod | hlast)
    · obtain ⟨k, rfl⟩ : ∃ k, j = head + k := ⟨j - head, by omega⟩
      rw [mod_of_dvd hd (by omega)] at hmod
      omega
    · omega
  refine ⟨by omega, by omega, hi, hends, hinner, ?_⟩
  have hslot : ∀ j, (s.WRs.set i (link W WRs i WRs.items[i])).slot j = WRs.slot j := fun j => by
    rw [GrowableVector.slot, GrowableVector.id_set, h.id]
    rfl
  have hchain := @chain_eq (s.WRs.set i (link W WRs i WRs.items[i])) head i (WRs.items.length + 1)
    (fun j => link W WRs j ((WRs.items[j]?).getD .zero)) (by omega)
    (fun j _ hj => by
      rw [h.set_passed hi j (by omega), List.getElem?_eq_getElem (by omega : j < WRs.items.length)]
      rfl)
    (fun j hj hji => by
      rw [hslot]
      simp only [link, if_neg (hinner j hj hji)])
    (by simp only [link, if_pos hends])
    (by omega)
  rw [hslot] at hchain
  rw [hchain]
  simp only [hslot]
  rfl

/-- What the loop does where a chain ends. -/
theorem Linking.postStep_ends (hends : EndsChain W WRs i) {head : Nat}
    (hwr : s.wr = some (WRs.slot head)) :
    postStep W (fun _ => true) s i =
      { WRs := s.WRs.set i (link W WRs i WRs.items[i])
        wr := if i = WRs.items.length - 1 then none
          else some ((s.WRs.set i (link W WRs i WRs.items[i])).slot (i + 1))
        chains := s.chains ++
          [chain (s.WRs.set i (link W WRs i WRs.items[i])) (WRs.items.length + 1)
            (some (WRs.slot head))]
        died := false } := by
  have hlink : link W WRs i WRs.items[i] = { WRs.items[i] with
      wr := { WRs.items[i].wr with signaled := true, next := none } } := if_pos hends
  have hcond : i % W = W - 1 ∨ i = WRs.items.length - 1 := hends
  rw [postStep, if_neg (by rw [h.died]; exact Bool.false_ne_true), h.here hi]
  simp only [h.length, if_pos hcond, hlink, hwr, Bool.not_true]

/-- Elsewhere it only links the request to the next one. -/
theorem Linking.postStep_links (hends : ¬ EndsChain W WRs i) :
    postStep W (fun _ => true) s i = { s with WRs := s.WRs.set i (link W WRs i WRs.items[i]) } := by
  have hlink : link W WRs i WRs.items[i] = { WRs.items[i] with
      wr := { WRs.items[i].wr with next := some (WRs.slot (i + 1)) } } := if_neg hends
  have hcond : ¬ (i % W = W - 1 ∨ i = WRs.items.length - 1) := hends
  rw [postStep, if_neg (by rw [h.died]; exact Bool.false_ne_true), h.here hi]
  simp only [h.length, if_neg hcond, hlink, GrowableVector.slot, h.id]

/-- One turn of the loop. -/
theorem Linking.turn (hW : 0 < W) : Linking W WRs (i + 1) (postStep W (fun _ => true) s i) := by
  obtain ⟨head, m, hm, hlt, hd, hwr, hblocks, hfull⟩ := h.running hi
  have hlength : ∀ r, (s.WRs.set i r).items.length = WRs.items.length := fun r => by
    rw [GrowableVector.items_set, List.length_set, h.length]
  by_cases hends : EndsChain W WRs i
  · have hposted := h.posted hi hm hlt hd hends
    have hstep := h.postStep_ends hi hends hwr
    generalize chain _ _ _ = posted at hposted hstep
    have hblocks' := hblocks.concat hposted
    rw [hstep]
    refine ⟨h.id, hlength _, h.set_passed hi, h.set_ahead _, rfl, fun hmore => ?_, fun hend => ?_⟩
    · -- The block was full, and the next one begins.
      have hmod : i % W = W - 1 := by
        rcases hends with hmod | hlast
        · exact hmod
        · omega
      rw [hm, mod_of_dvd hd hlt] at hmod
      refine ⟨i + 1, 0, rfl, hW, ?_, ?_, hblocks', ?_⟩
      · have hnext : i + 1 = head + W := by omega
        rw [hnext]
        exact Nat.dvd_add hd (Nat.dvd_refl W)
      · simp only [if_neg (by omega : ¬ i = WRs.items.length - 1), GrowableVector.slot,
          GrowableVector.id_set, h.id]
      · intro p hp
        rcases List.mem_append.1 hp with hp | hp
        · exact hfull p hp
        · rw [List.mem_singleton.1 hp, hposted.posted, List.length_map, List.length_range']
          omega
    · refine ⟨hblocks', ?_⟩
      simp only [List.dropLast_concat]
      exact hfull
  · have hmod : i % W ≠ W - 1 := fun hmod => hends (Or.inl hmod)
    have hlast : i ≠ WRs.items.length - 1 := fun hlast => hends (Or.inr hlast)
    rw [hm, mod_of_dvd hd hlt] at hmod
    rw [h.postStep_links hi hends]
    refine ⟨h.id, hlength _, h.set_passed hi, h.set_ahead _, h.died, fun _ => ?_,
      fun hend => by omega⟩
    exact ⟨head, m + 1, by omega, by omega, hd, hwr, hblocks, hfull⟩

end Turn

/-- The whole loop, no chain being refused. -/
theorem linking_foldl (hW : 0 < W) (hne : WRs.items ≠ []) {i : Nat} (hi : i ≤ WRs.items.length) :
    Linking W WRs i ((List.range i).foldl (postStep W fun _ => true)
      { WRs := WRs, wr := some (WRs.slot 0), chains := [], died := false }) := by
  induction i with
  | zero =>
      have hpos : WRs.items.length ≠ 0 := fun hzero => hne (List.length_eq_zero_iff.1 hzero)
      refine ⟨rfl, rfl, fun j hj => absurd hj (Nat.not_lt_zero j), fun j _ => rfl, rfl, fun _ => ?_,
        fun hzero => absurd hzero.symm hpos⟩
      have hnone : Blocks W WRs 0 [] := ⟨rfl, fun posted hp => absurd hp List.not_mem_nil⟩
      exact ⟨0, 0, rfl, hW, Nat.dvd_zero W, rfl, hnone, fun posted hp => absurd hp List.not_mem_nil⟩
  | succ i ih =>
      rw [List.range_succ, List.foldl_append]
      exact (ih (Nat.le_of_succ_le hi)).turn hi hW

end Chains

/-! ### Refused chains -/

section Refused

variable {W : Nat} {accepts : Nat → Bool} {s t : Posting} {i : Nat}

/-- The loop only adds chains, and dies of nothing but a refusal. -/
theorem postStep_accepted (hdied : t.died = false) :
    (postStep W (fun _ => true) t i).died = false ∧
    t.chains <+: (postStep W (fun _ => true) t i).chains := by
  rw [postStep, if_neg (by rw [hdied]; exact Bool.false_ne_true)]
  split
  · exact ⟨hdied, List.prefix_refl _⟩
  · simp only
    split
    · exact ⟨rfl, List.prefix_append _ _⟩
    · exact ⟨hdied, List.prefix_refl _⟩

/-- Up to a refusal the loop does not depend on the answers. -/
theorem postStep_refused (hdied : t.died = false) :
    postStep W accepts t i = postStep W (fun _ => true) t i ∨
      ((postStep W accepts t i).died = true ∧
        (postStep W accepts t i).chains = (postStep W (fun _ => true) t i).chains ∧
        ∃ n < (postStep W accepts t i).chains.length, accepts n = false) := by
  rw [postStep, postStep, if_neg (by rw [hdied]; exact Bool.false_ne_true),
    if_neg (by rw [hdied]; exact Bool.false_ne_true)]
  split
  · exact Or.inl rfl
  · simp only
    split
    · cases haccepts : accepts t.chains.length with
      | true => exact Or.inl rfl
      | false =>
          refine Or.inr ⟨rfl, rfl, t.chains.length, ?_, haccepts⟩
          rw [List.length_append]
          exact Nat.lt_succ_self _
    · exact Or.inl rfl

/-- A run in which chains may be refused, beside the one in which none is. -/
structure Refusing (accepts : Nat → Bool) (s t : Posting) : Prop where
  accepted : t.died = false
  chains : s.chains <+: t.chains
  same : s.died = false → s = t
  refused : s.died = true → ∃ n < s.chains.length, accepts n = false

theorem Refusing.turn (h : Refusing accepts s t) :
    Refusing accepts (postStep W accepts s i) (postStep W (fun _ => true) t i) := by
  obtain ⟨haccepted, hmore⟩ := postStep_accepted (W := W) (i := i) h.accepted
  cases hdied : s.died with
  | true =>
      have hstop : postStep W accepts s i = s := by rw [postStep, if_pos hdied]
      rw [hstop]
      exact ⟨haccepted, h.chains.trans hmore, (fun halive => nomatch hdied.symm.trans halive),
        h.refused⟩
  | false =>
      obtain rfl := h.same hdied
      rcases @postStep_refused W accepts _ i h.accepted with hsame | ⟨hdead, hchains, hno⟩
      · rw [hsame]
        exact ⟨haccepted, List.prefix_refl _, fun _ => rfl,
          fun hdead => nomatch haccepted.symm.trans hdead⟩
      · refine ⟨haccepted, hchains ▸ List.prefix_refl _, fun halive => ?_, fun _ => hno⟩
        exact nomatch hdead.symm.trans halive

theorem refusing_postAll (W : Nat) (accepts : Nat → Bool) (WRs : GrowableVector WR) :
    Refusing accepts (postAll W accepts WRs) (postAll W (fun _ => true) WRs) := by
  rw [postAll, postAll]
  induction List.range WRs.items.length using List.reverseRecOn with
  | nil => exact ⟨rfl, List.prefix_refl _, fun _ => rfl, fun hdead => nomatch hdead⟩
  | append_singleton l i ih =>
      rw [List.foldl_append, List.foldl_append]
      exact ih.turn

end Refused

/-! ### What is posted -/

/-- A work request as it was before `post_all`. -/
def WR.unposted (r : WR) : WR := { r with wr := { r.wr with signaled := false, next := none } }

/-- The chains are consecutive blocks of the vector: together all requests in order, in blocks of
    the window size but for the last. Along a chain each request is linked to the next, and the last
    one, which alone is signaled, to none. -/
structure PostedInChains (W : Nat) (WRs : GrowableVector WR) (chains : List (List (Slot × WR))) :
    Prop where
  places : chains.flatten.map Prod.fst = (List.range WRs.items.length).map WRs.slot
  requests : chains.flatten.map (fun p => p.2.unposted) = WRs.items
  nonempty : ∀ posted ∈ chains, posted ≠ []
  length_le : ∀ posted ∈ chains, posted.length ≤ W
  full : ∀ posted ∈ chains.dropLast, posted.length = W
  signaled : ∀ posted ∈ chains, ∀ k (h : k < posted.length),
    posted[k].2.wr.signaled = true ↔ k + 1 = posted.length
  next : ∀ posted ∈ chains, ∀ k (h : k < posted.length),
    posted[k].2.wr.next = (posted[k + 1]?).map Prod.fst

section Posted

variable {W head last : Nat} {WRs : GrowableVector WR} {posted : List (Slot × WR)}

theorem IsBlock.length (h : IsBlock W WRs head last posted) : posted.length = last + 1 - head := by
  rw [h.posted, List.length_map, List.length_range']

theorem IsBlock.get (h : IsBlock W WRs head last posted) (k : Nat) (hk : k < posted.length) :
    posted[k] = entry W WRs (head + k) := by
  have hget : posted[k]? = some (entry W WRs (head + k)) := by
    have hlength := h.length
    rw [h.posted, List.getElem?_map, List.getElem?_range' (by omega)]
    simp
  exact Option.some.inj ((List.getElem?_eq_getElem hk).symm.trans hget)

/-- Only the last request of a block ends a chain. -/
theorem IsBlock.ends_iff (h : IsBlock W WRs head last posted) {k : Nat} (hk : k < posted.length) :
    EndsChain W WRs (head + k) ↔ k + 1 = posted.length := by
  have hlength := h.length
  have hle := h.le
  constructor
  · intro hends
    by_contra hne
    exact h.inner (head + k) (Nat.le_add_right _ _) (by omega) hends
  · intro heq
    have hlast : head + k = last := by omega
    rw [hlast]
    exact h.ends

/-- A new request is signaled exactly if it ends a chain. -/
theorem entry_signaled (hnew : ∀ r ∈ WRs.items, r.wr.next = none ∧ r.wr.signaled = false) {i : Nat}
    (hi : i < WRs.items.length) : (entry W WRs i).2.wr.signaled = true ↔ EndsChain W WRs i := by
  have hunsignaled := (hnew WRs.items[i] (List.getElem_mem hi)).2
  simp only [entry, List.getElem?_eq_getElem hi, Option.getD_some, link]
  split
  · rename_i hends
    exact iff_of_true rfl hends
  · rename_i hends
    exact iff_of_false (by rw [hunsignaled]; exact Bool.false_ne_true) hends

theorem entry_unposted (hnew : ∀ r ∈ WRs.items, r.wr.next = none ∧ r.wr.signaled = false) {i : Nat}
    (hi : i < WRs.items.length) : (entry W WRs i).2.unposted = WRs.items[i] := by
  obtain ⟨hnext, hunsignaled⟩ := hnew WRs.items[i] (List.getElem_mem hi)
  have hsame : WRs.items[i].unposted = WRs.items[i] := by
    rw [WR.unposted, ← hnext, ← hunsignaled]
  rw [entry, List.getElem?_eq_getElem hi, Option.getD_some, link]
  split
  · exact hsame
  · exact hsame

theorem Blocks.postedInChains {chains : List (List (Slot × WR))}
    (h : Blocks W WRs WRs.items.length chains)
    (hfull : ∀ posted ∈ chains.dropLast, posted.length = W)
    (hnew : ∀ r ∈ WRs.items, r.wr.next = none ∧ r.wr.signaled = false) :
    PostedInChains W WRs chains where
  places := by
    rw [h.flatten, List.map_map]
    rfl
  requests := by
    rw [h.flatten, List.map_map]
    apply List.ext_getElem
    · rw [List.length_map, List.length_range]
    · intro i hi hi'
      rw [List.getElem_map, List.getElem_range]
      exact entry_unposted hnew hi'
  nonempty := by
    rintro posted hp rfl
    obtain ⟨head, last, hblock⟩ := h.block [] hp
    have hlength := hblock.length
    have hle := hblock.le
    simp only [List.length_nil] at hlength
    omega
  length_le := by
    intro posted hp
    obtain ⟨head, last, hblock⟩ := h.block posted hp
    rw [hblock.length]
    exact hblock.length_le
  full := hfull
  signaled := by
    intro posted hp k hk
    obtain ⟨head, last, hblock⟩ := h.block posted hp
    have hlength := hblock.length
    have hlt := hblock.lt
    rw [hblock.get k hk, entry_signaled hnew (by omega), hblock.ends_iff hk]
  next := by
    intro posted hp k hk
    obtain ⟨head, last, hblock⟩ := h.block posted hp
    rw [hblock.get k hk]
    by_cases hend : k + 1 = posted.length
    · rw [List.getElem?_eq_none (Nat.le_of_eq hend.symm)]
      simp only [entry, link, if_pos ((hblock.ends_iff hk).2 hend), Option.map_none]
    · have hmore : k + 1 < posted.length := by omega
      rw [List.getElem?_eq_getElem hmore, hblock.get (k + 1) hmore]
      simp only [entry, link, if_neg (fun hends => hend ((hblock.ends_iff hk).1 hends)),
        Option.map_some]
      rfl

end Posted

/-- `post_all` posts every work request once, in chains of at most the window size; if a chain is
    refused, the process ends after it, and what was posted is a beginning of these chains. -/
theorem post_all_chains (W : Nat) (WRs : GrowableVector WR) (hW : 0 < W) (hne : WRs.items ≠ [])
    (hnew : ∀ r ∈ WRs.items, r.wr.next = none ∧ r.wr.signaled = false) :
    PostedInChains W WRs (postAll W (fun _ => true) WRs).chains ∧
      ∀ accepts, (postAll W accepts WRs).chains <+: (postAll W (fun _ => true) WRs).chains ∧
        ((postAll W accepts WRs).died = false →
          (postAll W accepts WRs).chains = (postAll W (fun _ => true) WRs).chains) ∧
        ((postAll W accepts WRs).died = true →
          ∃ n < (postAll W accepts WRs).chains.length, accepts n = false) := by
  have hlinking : Linking W WRs WRs.items.length (postAll W (fun _ => true) WRs) :=
    linking_foldl hW hne (Nat.le_refl _)
  obtain ⟨hblocks, hfull⟩ := hlinking.done rfl
  refine ⟨hblocks.postedInChains hfull hnew, fun accepts => ?_⟩
  have hrefusing := refusing_postAll W accepts WRs
  exact ⟨hrefusing.chains, fun halive => congrArg Posting.chains (hrefusing.same halive),
    hrefusing.refused⟩

/-- Three requests in windows of two. -/
theorem post_all_chains_three : PostedInChains 2 ⟨0, 4, [.zero, .zero, .zero], by decide⟩
    (postAll 2 (fun _ => true) ⟨0, 4, [.zero, .zero, .zero], by decide⟩).chains :=
  (post_all_chains 2 ⟨0, 4, [.zero, .zero, .zero], by decide⟩ (by decide) (by decide) (by decide)).1

end FamGraph.Edgemap
