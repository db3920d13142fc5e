/-
Module: FamGraph.Core.EdgeListText
Layer: Core
Purpose: How the converter reads its input, `while (ifs >> a >> b)`. Extraction of a `uint32_t` from
  a stream follows `std::num_get` in the classic locale as libstdc++ has it: blanks are skipped, a
  sign may precede the digits, a minus negates modulo `2 ^ 32`, and no digit or a number out of
  range makes the stream fail. A failed stream stays failed, so the loop ends at the first number
  that cannot be read.
Trusted boundary: human-reviewed model of the reading loop of `encode_unweighted` and of
  `operator>>`
Main exports: isspace, extractUint32, readPairs, encodeText
-/
import FamGraph.Core.EdgeListToCsr

namespace FamGraph

/-- `std::isspace` in the classic locale: the blank, and tab to carriage return. -/
def isspace (c : Char) : Bool := c.toNat = 32 || (9 ≤ c.toNat && c.toNat ≤ 13)

/-- The sign in front of the digits: whether it is a minus, and what follows. -/
def takeSign : List Char → Bool × List Char
  | '-' :: s => (true, s)
  | '+' :: s => (false, s)
  | s => (false, s)

/-- `ifs >> a` on what is left of the file: the value and what is left then, `none` if the stream
    fails. -/
def extractUint32 (s : List Char) : Option (Nat × List Char) :=
  let (negative, s) := takeSign (s.dropWhile isspace)
  let digits := s.takeWhile Char.isDigit
  if digits = [] then none
  else if Nat.ofDigitChars 10 digits 0 < 2 ^ 32 then
    let value := Nat.ofDigitChars 10 digits 0
    some (if negative then (2 ^ 32 - value) % 2 ^ 32 else value, s.dropWhile Char.isDigit)
  else none

theorem length_takeSign_le (s : List Char) : (takeSign s).2.length ≤ s.length := by
  unfold takeSign
  split
  · exact Nat.le_succ _
  · exact Nat.le_succ _
  · exact Nat.le_refl _

/-- Every extraction uses up a character. -/
theorem length_lt_of_extractUint32 {s rest : List Char} {a : Nat}
    (h : extractUint32 s = some (a, rest)) :
    rest.length < s.length := by
  have hsign := length_takeSign_le (s.dropWhile isspace)
  have hblank := (List.dropWhile_sublist isspace (l := s)).length_le
  simp only [extractUint32] at h
  generalize (takeSign (s.dropWhile isspace)).2 = t at h hsign
  split at h
  · cases h
  · rename_i hdigits
    split at h
    · cases h
      have hparts := congrArg List.length
        (List.takeWhile_append_dropWhile (p := Char.isDigit) (l := t))
      have hpos := List.length_pos_iff.2 hdigits
      rw [List.length_append] at hparts
      omega
    · cases h

/-- The loop of `encode_unweighted`:

        while (ifs >> a >> b) {...}
-/
def readPairs (s : List Char) : List (Nat × Nat) :=
  match _h : extractUint32 s with
  | none => []
  | some (a, s') =>
      match _h' : extractUint32 s' with
      | none => []
      | some (b, s'') => (a, b) :: readPairs s''
termination_by s.length
decreasing_by exact Nat.lt_trans (length_lt_of_extractUint32 _h') (length_lt_of_extractUint32 _h)

/-- `encode_unweighted`, from the text of the input file. -/
def encodeText (sort : List (Nat × Nat) → List (Nat × Nat)) (make_undirected sorted : Bool)
    (text : List Char) :
    Except String (List UInt8 × List UInt8) :=
  encodeUnweighted sort make_undirected sorted (readPairs text)

end FamGraph
