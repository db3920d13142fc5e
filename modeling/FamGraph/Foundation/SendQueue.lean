/-
Module: FamGraph.Foundation.SendQueue
Layer: Foundation
Purpose: A send queue with selective signaling. A chain of requests is posted one by one until the
  queue is full; a request leaves the queue only when the completion of a signaled request behind
  it, or its own, is taken off the completion queue. Posting is done once or, after a failure, again
  from the head of the chain. For chains in which exactly the first request is signaled: how much a
  chain leaves behind, when the next one fits, and when posting again ends.
Trusted boundary: none
Main exports: SendQueue.post, retire, retry, HeadSignaled, length_retire_post, post_fits_iff,
  retry_ends_iff, retry_result
-/
import FamGraph.Foundation.Loop
import Mathlib.Data.List.TakeWhile

namespace SendQueue

variable {α : Type*} (signaled : α → Bool) (capacity : Nat)

/-- Post a chain behind what is queued: the requests that fit stay queued, whether or not all do. -/
def post (capacity : Nat) : List α → List α → List α × Bool
  | queue, [] => (queue, true)
  | queue, wr :: chain =>
      if queue.length < capacity then post capacity (queue ++ [wr]) chain else (queue, false)

/-- What stays queued when everything queued has executed and all completions have been taken. -/
def retire : List α → List α
  | [] => []
  | wr :: queue => if signaled wr || queue.any signaled then retire queue else wr :: queue

/-- Post, and after every failure post again from the head of the chain; completions are taken
    before every attempt. The result is the queue in which the whole chain is. -/
def retry (chain : List α) (fuel : Nat) (queue : List α) : Option (List α) :=
  (Loop.run (fun s : List α × Bool => !s.2)
    (fun s => some (post capacity (retire signaled s.1) chain)) fuel
    (post capacity (retire signaled queue) chain)).map (·.1)

/-- The first request of the chain is signaled, the others are not. -/
structure HeadSignaled (chain : List α) : Prop where
  ne_nil : chain ≠ []
  head : ∀ wr ∈ chain.head?, signaled wr = true
  tail : ∀ wr ∈ chain.tail, signaled wr = false

variable {signaled capacity} {queue chain : List α}

/-! ### One attempt -/

theorem post_queue (capacity : Nat) (queue chain : List α) :
    (post capacity queue chain).1 = queue ++ chain.take (capacity - queue.length) := by
  induction chain generalizing queue with
  | nil => simp [post]
  | cons wr chain ih =>
      rw [post]
      split
      · rename_i hroom
        obtain ⟨room, hsub⟩ : ∃ room, capacity - queue.length = room + 1 :=
          ⟨capacity - queue.length - 1, by omega⟩
        have hrest : capacity - (queue ++ [wr]).length = room := by
          rw [List.length_append, List.length_singleton]
          omega
        rw [ih, hrest, hsub, List.take_succ_cons, List.append_assoc, List.singleton_append]
      · rename_i hfull
        have hsub : capacity - queue.length = 0 := Nat.sub_eq_zero_of_le (Nat.le_of_not_lt hfull)
        rw [hsub, List.take_zero, List.append_nil]

/-- All of a chain fits if the free slots are enough for it. -/
theorem post_fits_iff (hchain : chain ≠ []) :
    (post capacity queue chain).2 = true ↔ queue.length + chain.length ≤ capacity := by
  have hall :
      (post capacity queue chain).2 = true ↔
      chain = [] ∨ queue.length + chain.length ≤ capacity := by
    clear hchain
    induction chain generalizing queue with
    | nil => simp [post]
    | cons wr chain ih =>
        rw [post]
        split
        · rw [ih]
          cases chain with
          | nil => simp; omega
          | cons next chain => simp; omega
        · simp
          omega
  rw [hall, or_iff_right hchain]

theorem post_fails_iff (hchain : chain ≠ []) :
    (post capacity queue chain).2 = false ↔ capacity < queue.length + chain.length := by
  rw [← Bool.not_eq_true, post_fits_iff hchain, Nat.not_le]

/-! ### What stays behind -/

theorem retire_of_unsignaled (h : ∀ wr ∈ queue, signaled wr = false) :
    retire signaled queue = queue := by
  cases queue with
  | nil => rfl
  | cons wr queue =>
      have hnone : (signaled wr || queue.any signaled) = false := by
        rw [Bool.or_eq_false_iff, List.any_eq_false]
        exact ⟨h wr List.mem_cons_self, fun x hx => by simp [h x (List.mem_cons_of_mem wr hx)]⟩
      rw [retire, hnone, if_neg Bool.false_ne_true]

/-- A signaled request takes everything before it along. -/
theorem retire_append_signaled {wr : α} (hwr : signaled wr = true) (before after : List α) :
    retire signaled (before ++ wr :: after) = retire signaled after := by
  induction before with
  | nil => rw [List.nil_append, retire, hwr, Bool.true_or, if_pos rfl]
  | cons first before ih =>
      have hsome : (signaled first || (before ++ wr :: after).any signaled) = true := by simp [hwr]
      rw [List.cons_append, retire, hsome, if_pos rfl, ih]

/-- Of a queue that takes part of the chain, the unsignaled requests of that part stay. -/
theorem retire_post (h : HeadSignaled signaled chain) (hroom : queue.length < capacity) :
    retire signaled (post capacity queue chain).1 =
      chain.tail.take (capacity - queue.length - 1) := by
  obtain ⟨room, hsub⟩ : ∃ room, capacity - queue.length = room + 1 :=
    ⟨capacity - queue.length - 1, by omega⟩
  rw [post_queue, hsub, Nat.add_sub_cancel]
  cases chain with
  | nil => exact absurd rfl h.ne_nil
  | cons wr chain =>
      rw [List.take_succ_cons, List.tail_cons, retire_append_signaled (h.head wr rfl)]
      exact retire_of_unsignaled fun x hx => h.tail x (List.mem_of_mem_take hx)

/-- A chain that fits leaves all but its first request behind. -/
theorem retire_post_of_fits (h : HeadSignaled signaled chain)
    (hfits : queue.length + chain.length ≤ capacity) :
    retire signaled (post capacity queue chain).1 = chain.tail := by
  have hpos := List.length_pos_iff.2 h.ne_nil
  rw [retire_post h (by omega)]
  apply List.take_of_length_le
  rw [List.length_tail]
  omega

/-- A chain that does not fit leaves one slot less behind than there were free ones. -/
theorem length_retire_post_of_fails (h : HeadSignaled signaled chain)
    (hroom : queue.length < capacity) (hfails : capacity < queue.length + chain.length) :
    (retire signaled (post capacity queue chain).1).length = capacity - queue.length - 1 := by
  rw [retire_post h hroom, List.length_take, List.length_tail]
  omega

/-! ### Posting again -/

/-- What posting again comes to is a queue with the whole chain at its end. -/
theorem retry_result {fuel : Nat} {queue' : List α} (h : HeadSignaled signaled chain)
    (hrun : retry signaled capacity chain fuel queue = some queue') :
    (∃ kept, queue' = kept ++ chain) ∧ retire signaled queue' = chain.tail := by
  obtain ⟨s, hloop, rfl⟩ := Option.map_eq_some_iff.1 hrun
  have hend : (∃ kept, s = post capacity kept chain) ∧ (!s.2) = false := by
    apply Loop.run_invariant (fun s => ∃ kept, s = post capacity kept chain) _ ⟨_, rfl⟩ hloop
    intro s s' _ _ hbody
    exact ⟨_, (Option.some.inj hbody).symm⟩
  obtain ⟨⟨kept, rfl⟩, hok⟩ := hend
  have hfits := (post_fits_iff h.ne_nil).1 (by simpa using hok)
  refine ⟨⟨kept, ?_⟩, retire_post_of_fits h hfits⟩
  rw [post_queue, List.take_of_length_le (by omega)]

/-- Two occupancies take turns forever if the chain fits with neither. -/
theorem retry_cycles (h : HeadSignaled signaled chain)
    (hroom : (retire signaled queue).length < capacity)
    (hfails : capacity < (retire signaled queue).length + chain.length)
    (hfails' : (retire signaled queue).length + 1 < chain.length) (fuel : Nat) :
    retry signaled capacity chain fuel queue = none := by
  by_contra hsome
  obtain ⟨queue', hrun⟩ := Option.ne_none_iff_exists'.1 hsome
  obtain ⟨s, hloop, -⟩ := Option.map_eq_some_iff.1 hrun
  have hturn : ∀ queue', (retire signaled queue').length = (retire signaled queue).length ∨
      (retire signaled queue').length = capacity - (retire signaled queue).length - 1 →
      (post capacity (retire signaled queue') chain).2 = false ∧
        ((retire signaled (post capacity (retire signaled queue') chain).1).length =
            (retire signaled queue).length ∨
          (retire signaled (post capacity (retire signaled queue') chain).1).length =
            capacity - (retire signaled queue).length - 1) := by
    intro queue' hlength
    have hroom' : (retire signaled queue').length < capacity := by omega
    have hno : capacity < (retire signaled queue').length + chain.length := by omega
    rw [post_fails_iff h.ne_nil, length_retire_post_of_fails h hroom' hno]
    omega
  have hend : (s.2 = false ∧ ((retire signaled s.1).length = (retire signaled queue).length ∨
      (retire signaled s.1).length = capacity - (retire signaled queue).length - 1)) ∧
      (!s.2) = false := by
    apply Loop.run_invariant (fun s : List α × Bool => s.2 = false ∧
      ((retire signaled s.1).length = (retire signaled queue).length ∨
        (retire signaled s.1).length = capacity - (retire signaled queue).length - 1)) _
      (hturn queue (.inl rfl)) hloop
    intro s s' hs _ hbody
    obtain rfl := Option.some.inj hbody
    exact hturn s.1 hs.2
  rw [hend.1.1] at hend
  exact nomatch hend.2

/-- A chain that fits is posted at the first attempt. -/
theorem retry_of_fits (hok : (post capacity (retire signaled queue) chain).2 = true) :
    retry signaled capacity chain 0 queue =
      some (post capacity (retire signaled queue) chain).1 := by
  have hdone :
      (!(post capacity (retire signaled queue) chain).2) = false := by rw [hok, Bool.not_true]
  rw [retry, @Loop.run_of_done _ (fun s : List α × Bool => !s.2) _ _ hdone, Option.map_some]

theorem retry_of_fails (hfail : (post capacity (retire signaled queue) chain).2 = false)
    (fuel : Nat) :
    retry signaled capacity chain (fuel + 1) queue =
      retry signaled capacity chain fuel (post capacity (retire signaled queue) chain).1 := by
  have hcond :
      (!(post capacity (retire signaled queue) chain).2) = true := by rw [hfail, Bool.not_false]
  rw [retry, @Loop.run_succ_of_cond _ (fun s : List α × Bool => !s.2) _ _ hcond, Option.bind_some,
    retry]

/-- With some slot free, posting again ends exactly if the chain fits, or fits once the requests it
    has left behind itself have replaced those it found. -/
theorem retry_ends_iff (h : HeadSignaled signaled chain)
    (hroom : (retire signaled queue).length < capacity) :
    (∃ fuel queue', retry signaled capacity chain fuel queue = some queue') ↔
      (retire signaled queue).length + chain.length ≤ capacity ∨
        chain.length ≤ (retire signaled queue).length + 1 := by
  constructor
  · rintro ⟨fuel, queue', hrun⟩
    by_contra hno
    have hnone := retry_cycles h hroom (by omega) (by omega) fuel
    exact nomatch hrun.symm.trans hnone
  · intro hcond
    by_cases hfits : (retire signaled queue).length + chain.length ≤ capacity
    · exact ⟨0, _, retry_of_fits ((post_fits_iff h.ne_nil).2 hfits)⟩
    · -- The second attempt finds what the first one has left.
      have hfails := Nat.lt_of_not_le hfits
      have hleft := length_retire_post_of_fails h hroom hfails
      have hok :
          (post capacity (retire signaled (post capacity (retire signaled queue) chain).1)
            chain).2 =
          true := by
        rw [post_fits_iff h.ne_nil, hleft]
        omega
      exact ⟨1, _,
        (retry_of_fails ((post_fails_iff h.ne_nil).2 hfails) 0).trans (retry_of_fits hok)⟩

end SendQueue
