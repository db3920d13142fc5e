/-
Module: FamGraph.Core.Bitmap
Layer: Core
Purpose: The frontier bitmap of `bitmap.hpp`: 64-bit words, and one `uint32_t` counter for each
  thread that the thread alone increments (`tbb::combinable`). Definitions follow the members of
  `famgraph::Bitmap`; `Bitmap.Active` is the set a bitmap stands for and `Bitmap.Counted` says that
  the counters agree with it.
Trusted boundary: human-reviewed model of `famgraph::Bitmap`
Main exports: Bitmap, getBit, setBit, clear, setAll, numSet, isEmpty, Active, Counted
-/
import Mathlib.Algebra.BigOperators.Fin
import Mathlib.Data.BitVec

namespace FamGraph

/-- `#define WORD_OFFSET(i) (i >> 6)` -/
def wordOffset (i : Nat) : Nat := i >>> 6

/-- `#define BIT_OFFSET(i) (i & 0x3f)` -/
def bitOffset (i : Nat) : Nat := i &&& 0x3f

/-- `famgraph::Bitmap`. `frontier_size` holds the counter of each of the `threads` threads; the
    words are the mapped region `data` points to. -/
structure Bitmap (threads : Nat) where
  size : Nat
  data : Nat → BitVec 64
  frontier_size : Fin threads → BitVec 32

namespace Bitmap

variable {threads : Nat}

/-- The constructor: an anonymous mapping is zero-filled and no thread has counted anything. -/
def fresh (t_size : Nat) : Bitmap threads where
  size := t_size
  data := fun _ => 0#64
  frontier_size := fun _ => 0#32

/-- `my_range` is `[0, WORD_OFFSET(size) + 1)`. -/
def words (b : Bitmap threads) : Nat := wordOffset b.size + 1

def clear (b : Bitmap threads) : Bitmap threads :=
  { b with
    data := fun w => if w < b.words then 0#64 else b.data w
    frontier_size := fun _ => 0#32 }

/-- `set_all`, run by thread `t`: the other counters are left as they are. -/
def setAll (b : Bitmap threads) (t : Fin threads) : Bitmap threads :=
  { b with
    data := fun w => if w < b.words then BitVec.allOnes 64 else b.data w
    frontier_size := Function.update b.frontier_size t (BitVec.ofNat 32 b.size) }

def getBit (b : Bitmap threads) (i : Nat) : BitVec 64 :=
  b.data (wordOffset i) &&& (1#64 <<< bitOffset i)

/-- `set_bit`, run by thread `t`: an atomic fetch-and-or of the word, then the thread's own counter
    if the bit was clear. -/
def setBit (b : Bitmap threads) (t : Fin threads) (i : Nat) : Bitmap threads × Bool :=
  let prev := b.data (wordOffset i)
  let mask := 1#64 <<< bitOffset i
  let was_unset := prev &&& mask = 0#64
  ({ b with
      data := Function.update b.data (wordOffset i) (prev ||| mask)
      frontier_size :=
        if was_unset then Function.update b.frontier_size t (b.frontier_size t + 1#32)
        else b.frontier_size },
    was_unset)

/-- `frontier_size.combine(std::plus<uint32_t>{})` -/
def numSet (b : Bitmap threads) : BitVec 32 := ∑ t, b.frontier_size t

def isEmpty (b : Bitmap threads) : Bool := b.numSet = 0#32

/-- The bit of index `i` is set. -/
def Active (b : Bitmap threads) (i : Nat) : Prop := b.getBit i ≠ 0#64

instance (b : Bitmap threads) : DecidablePred b.Active :=
  fun i => inferInstanceAs (Decidable (b.getBit i ≠ 0#64))

/-- The indices below `size` whose bit is set. -/
def support (b : Bitmap threads) : Finset Nat := (Finset.range b.size).filter b.Active

/-- The thread counters add up to the number of set bits. -/
def Counted (b : Bitmap threads) : Prop := b.numSet = BitVec.ofNat 32 b.support.card

end Bitmap

end FamGraph
