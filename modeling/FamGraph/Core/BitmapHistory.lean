/-
Module: FamGraph.Core.BitmapHistory
Layer: Core
Purpose: Histories of calls on one `Bitmap`. `set_bit` is cut in two where another thread can come
  in between: the atomic fetch-and-or of the word, and the rest, which increments the thread's own
  counter if the bit was unset. `clear` and `set_all` are called while no `set_bit` runs, and
  `set_all` on a fresh or cleared bitmap only, as the kernels do. What the calls have returned since
  the last `clear` is kept. The constructor has mapped `data`, which fails for a bitmap of size 0:
  that is a mapping of no bytes.
Trusted boundary: human-reviewed model of `set_bit`, and of how the kernels call the members of
  `Bitmap`
Main exports: Bitmap.fetchOr, Bitmap.increment, Bitmap.Op, Bitmap.History, Bitmap.history
-/
import FamGraph.Core.Bitmap
import FamGraph.Foundation.TransitionSystem

namespace FamGraph.Bitmap

variable {threads : Nat}

/-- `prev = __sync_fetch_and_or(...)`, with `was_unset`. -/
def fetchOr (b : Bitmap threads) (i : Nat) : Bitmap threads × Bool :=
  let prev := b.data (wordOffset i)
  let mask := 1#64 <<< bitOffset i
  ({ b with data := Function.update b.data (wordOffset i) (prev ||| mask) }, prev &&& mask = 0#64)

/-- `++frontier_size.local()` on thread `t`. -/
def increment (b : Bitmap threads) (t : Fin threads) : Bitmap threads :=
  { b with frontier_size := Function.update b.frontier_size t (b.frontier_size t + 1#32) }

/-- What can happen next: `clear`, `set_all`, the fetch-and-or of `set_bit(i)`, the rest of it. -/
inductive Op (threads : Nat) where
  | clear
  | setAll (t : Fin threads)
  | fetchOr (t : Fin threads) (i : Nat)
  | return_ (t : Fin threads)
deriving DecidableEq, Repr

/-- A bitmap in use. `pending` holds index and `was_unset` of the call each thread is in, `returns`
    index and result of the calls since the last `clear`; `untouched` and `filled` say that there
    was neither `set_bit` nor `set_all` since then, and that there was a `set_all`. -/
structure History (threads : Nat) where
  b : Bitmap threads
  pending : Fin threads → Option (Nat × Bool)
  returns : List (Nat × Bool)
  untouched : Bool
  filled : Bool

/-- No thread is in `set_bit`. -/
def History.Idle (h : History threads) : Prop := ∀ t, h.pending t = none

instance (h : History threads) : Decidable h.Idle :=
  inferInstanceAs (Decidable (∀ t, h.pending t = none))

def History.start (size : Nat) : History threads where
  b := fresh size
  pending := fun _ => none
  returns := []
  untouched := true
  filled := false

/-- The state after an operation, if it can happen. -/
def History.step (h : History threads) : Op threads → Option (History threads)
  | .clear =>
      if h.Idle then
        some { h with b := h.b.clear, returns := [], untouched := true, filled := false }
      else none
  | .setAll t =>
      if h.Idle ∧ h.untouched = true then
        some { h with b := h.b.setAll t, untouched := false, filled := true }
      else none
  | .fetchOr t i =>
      -- `assert(i < size)`
      if h.pending t = none ∧ i < h.b.size then
        some { h with
          b := (h.b.fetchOr i).1
          pending := Function.update h.pending t (some (i, (h.b.fetchOr i).2))
          untouched := false }
      else none
  | .return_ t =>
      match h.pending t with
      | none => none
      | some (i, was_unset) =>
          some { h with
            b := if was_unset then h.b.increment t else h.b
            pending := Function.update h.pending t none
            returns := h.returns ++ [(i, was_unset)] }

/-- A bitmap of any size, with what was done to it. -/
def history (threads : Nat) : TransitionSystem (History threads × List (Op threads)) :=
  .labelled (fun h => ∃ size < 2 ^ 32, h = .start size) History.step History.Idle

end FamGraph.Bitmap
