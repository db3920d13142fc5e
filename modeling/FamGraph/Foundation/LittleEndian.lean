/-
Module: FamGraph.Foundation.LittleEndian
Layer: Foundation
Purpose: Fixed-width little-endian words in a byte string: what `write((char*)&x, sizeof(x))`
  appends and what reading it back yields.
Trusted boundary: human-reviewed byte order
Main exports: LittleEndian.encode, decode, encodeAll, wordAt, decode_encode, decode_lt,
  encode_decode, wordAt_encodeAll, wordAt_append_left, encodeAll_inj, wordAt_drop, wordAt_take
-/
import Mathlib.Algebra.Order.Ring.Nat
import Mathlib.Order.Lattice.Nat

namespace LittleEndian

/-- The `width` low bytes of `x`, least significant first. -/
def encode : Nat → Nat → List UInt8
  | 0, _ => []
  | width + 1, x => UInt8.ofNat (x % 256) :: encode width (x / 256)

/-- The number a byte string stands for. -/
def decode : List UInt8 → Nat
  | [] => 0
  | b :: bytes => b.toNat + 256 * decode bytes

/-- An array of words, written one after the other. -/
def encodeAll (width : Nat) (xs : List Nat) : List UInt8 := xs.flatMap (encode width)

/-- The word with index `i` of an array. -/
def wordAt (width : Nat) (bytes : List UInt8) (i : Nat) : Nat :=
  decode ((bytes.drop (width * i)).take width)

@[simp] theorem length_encode (width x : Nat) : (encode width x).length = width := by
  induction width generalizing x with
  | zero => rfl
  | succ width ih => simp [encode, ih]

/-- Reading back a word gives it modulo its width. -/
theorem decode_encode (width x : Nat) : decode (encode width x) = x % 256 ^ width := by
  induction width generalizing x with
  | zero => simp [encode, decode, Nat.mod_one]
  | succ width ih =>
      have hbyte : (UInt8.ofNat (x % 256)).toNat = x % 256 :=
        UInt8.toNat_ofNat_of_lt (Nat.mod_lt x (by decide))
      rw [encode, decode, ih, hbyte, Nat.pow_succ', Nat.mod_mul]

/-- A word that fits is read back unchanged. -/
theorem decode_encode_of_lt {width x : Nat} (h : x < 256 ^ width) :
    decode (encode width x) = x := by
  rw [decode_encode, Nat.mod_eq_of_lt h]

theorem decode_lt (bytes : List UInt8) : decode bytes < 256 ^ bytes.length := by
  induction bytes with
  | nil => exact Nat.one_pos
  | cons b bytes ih =>
      have hbyte : b.toNat < 256 := b.toNat_lt
      rw [decode, List.length_cons, Nat.pow_succ]
      omega

/-- Writing back what was read. -/
theorem encode_decode {width : Nat} {bytes : List UInt8} (h : bytes.length = width) :
    encode width (decode bytes) = bytes := by
  induction bytes generalizing width with
  | nil =>
      subst h
      rfl
  | cons b bytes ih =>
      subst h
      have hbyte : b.toNat < 256 := b.toNat_lt
      have hlow : (b.toNat + 256 * decode bytes) % 256 = b.toNat := by omega
      have hrest : (b.toNat + 256 * decode bytes) / 256 = decode bytes := by omega
      rw [List.length_cons, decode, encode, hlow, hrest, ih rfl, UInt8.ofNat_toNat]

/-- Words of one width are equal only if their bytes are. -/
theorem decode_inj {a b : List UInt8} (hlength : a.length = b.length) :
    decode a = decode b ↔ a = b := by
  constructor
  · intro h
    rw [← encode_decode hlength, h, encode_decode rfl]
  · intro h
    rw [h]

@[simp] theorem encodeAll_nil (width : Nat) : encodeAll width [] = [] := rfl

@[simp] theorem encodeAll_cons (width x : Nat) (xs : List Nat) :
    encodeAll width (x :: xs) = encode width x ++ encodeAll width xs := rfl

@[simp] theorem length_encodeAll (width : Nat) (xs : List Nat) :
    (encodeAll width xs).length = width * xs.length := by
  induction xs with
  | nil => rfl
  | cons x xs ih =>
      rw [encodeAll_cons, List.length_append, length_encode, ih, List.length_cons, Nat.mul_succ]
      exact Nat.add_comm _ _

/-- Skipping words of an array. -/
theorem drop_encodeAll (width : Nat) (xs : List Nat) (i : Nat) :
    (encodeAll width xs).drop (width * i) = encodeAll width (xs.drop i) := by
  induction i generalizing xs with
  | zero => simp
  | succ i ih =>
      cases xs with
      | nil => simp [encodeAll]
      | cons x xs =>
          have hskip : width * (i + 1) = (encode width x).length + width * i := by
            rw [length_encode, Nat.mul_succ, Nat.add_comm]
          rw [encodeAll_cons, hskip, ← List.drop_drop, List.drop_left, ih, List.drop_succ_cons]

/-- The first word of an array. -/
theorem take_encodeAll_cons (width x : Nat) (xs : List Nat) :
    (encodeAll width (x :: xs)).take width = encode width x := by
  rw [encodeAll_cons, List.take_append_of_le_length (by rw [length_encode]),
    List.take_of_length_le (by rw [length_encode])]

/-- The words of an array are read back at their index. -/
theorem wordAt_encodeAll {width : Nat} {xs : List Nat} {i : Nat} (hi : i < xs.length)
    (hfits : xs[i] < 256 ^ width) : wordAt width (encodeAll width xs) i = xs[i] := by
  rw [wordAt, drop_encodeAll, List.drop_eq_getElem_cons hi, take_encodeAll_cons,
    decode_encode_of_lt hfits]

/-- The same, for an entry looked up with `?`. -/
theorem wordAt_of_getElem? {width : Nat} {xs : List Nat} {i x : Nat} (hx : xs[i]? = some x)
    (hfits : x < 256 ^ width) : wordAt width (encodeAll width xs) i = x := by
  obtain ⟨hi, rfl⟩ := List.getElem?_eq_some_iff.1 hx
  exact wordAt_encodeAll hi hfits

/-- A word of what stands in front. -/
theorem wordAt_append_left {width i : Nat} {a : List UInt8} (b : List UInt8)
    (h : width * (i + 1) ≤ a.length) :
    wordAt width (a ++ b) i = wordAt width a i := by
  rw [Nat.mul_succ] at h
  rw [wordAt, wordAt, List.drop_append_of_le_length (by omega), List.take_append_of_le_length]
  rw [List.length_drop]
  omega

/-- All words of an array, read back one by one. -/
theorem map_wordAt_encodeAll {width : Nat} {xs : List Nat} (h : ∀ x ∈ xs, x < 256 ^ width)
    (rest : List UInt8) :
    (List.range xs.length).map (wordAt width (encodeAll width xs ++ rest)) = xs := by
  apply List.ext_getElem
  · rw [List.length_map, List.length_range]
  · intro i hi hi'
    rw [List.getElem_map, List.getElem_range, wordAt_append_left,
      wordAt_encodeAll hi' (h _ (List.getElem_mem hi'))]
    rw [length_encodeAll]
    exact Nat.mul_le_mul_left width hi'

/-- Arrays of equal bytes are equal. -/
theorem encodeAll_inj {width : Nat} {xs ys : List Nat} (hxs : ∀ x ∈ xs, x < 256 ^ width)
    (hys : ∀ y ∈ ys, y < 256 ^ width) (hwidth : 0 < width)
    (h : encodeAll width xs = encodeAll width ys) :
    xs = ys := by
  have hlength : xs.length = ys.length := by
    have hbytes := congrArg List.length h
    rw [length_encodeAll, length_encodeAll] at hbytes
    exact Nat.eq_of_mul_eq_mul_left hwidth hbytes
  rw [← map_wordAt_encodeAll hxs [], ← map_wordAt_encodeAll hys [], h, hlength]

theorem wordAt_drop (width k : Nat) (bytes : List UInt8) (i : Nat) :
    wordAt width (bytes.drop (width * k)) i = wordAt width bytes (k + i) := by
  rw [wordAt, wordAt, List.drop_drop, Nat.mul_add]

theorem wordAt_take {width n i : Nat} (bytes : List UInt8) (h : width * (i + 1) ≤ n) :
    wordAt width (bytes.take n) i = wordAt width bytes i := by
  rw [Nat.mul_succ] at h
  rw [wordAt, wordAt, List.drop_take, List.take_take, Nat.min_eq_left (by omega)]

theorem wordAt_lt (width : Nat) (bytes : List UInt8) (i : Nat) :
    wordAt width bytes i < 256 ^ width :=
  Nat.lt_of_lt_of_le (decode_lt _) (Nat.pow_le_pow_right (by decide) (List.length_take_le _ _))

end LittleEndian
