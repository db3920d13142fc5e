/-
Module: FamGraph.Proofs.EdgeListText
Layer: Proofs
Purpose: From the text of an edge list to the pairs. However the numbers are spaced and padded with
  zeros, the loop reads the pairs that were written, up to the first place where no number can be
  extracted; from there on the file is ignored, and nothing tells its files from those of a complete
  list.
Trusted boundary: none
Main exports: IsNumber, Lists, Ignored, readPairs_append, text_reaches_clients
-/
import FamGraph.Core.EdgeListText
import FamGraph.Proofs.Pipeline

namespace FamGraph

/-! ### Numbers -/

/-- `text` is blanks and then the digits of `a`, with any number of zeros in front. -/
inductive IsNumber : List Char → Nat → Prop where
  | intro {blanks digits : List Char} : (∀ c ∈ blanks, isspace c = true) → digits ≠ [] →
      (∀ c ∈ digits, c.isDigit = true) → Nat.ofDigitChars 10 digits 0 < 2 ^ 32 →
      IsNumber (blanks ++ digits) (Nat.ofDigitChars 10 digits 0)

/-- Nothing that follows a number continues it. -/
def Apart (text : List Char) : Prop := ∀ c ∈ text.head?, c.isDigit = false

instance : DecidablePred Apart := fun text => Option.decidableForallMem text.head?

theorem digit_range {c : Char} (h : c.isDigit = true) : 48 ≤ c.toNat ∧ c.toNat ≤ 57 :=
  Char.isDigit_iff_toNat.1 h

theorem isspace_of_isDigit {c : Char} (h : c.isDigit = true) : isspace c = false := by
  have hrange := digit_range h
  simp only [isspace, Bool.or_eq_false_iff, decide_eq_false_iff_not, Bool.and_eq_false_iff]
  omega

/-- Digits carry no sign. -/
theorem takeSign_of_isDigit {c : Char} (h : c.isDigit = true) (s : List Char) :
    takeSign (c :: s) = (false, c :: s) := by
  unfold takeSign
  split
  · rename_i heq
    cases heq
    cases h
  · rename_i heq
    cases heq
    cases h
  · rfl

/-- A number is extracted, up to where it ends. -/
theorem IsNumber.extract {text rest : List Char} {a : Nat} (h : IsNumber text a)
    (hrest : Apart rest) :
    extractUint32 (text ++ rest) = some (a, rest) := by
  cases h with
  | @intro blanks digits hblanks hne hdigits hlt =>
      cases digits with
      | nil => exact absurd rfl hne
      | cons d ds =>
          have hd : d.isDigit = true := hdigits d List.mem_cons_self
          have hstop : rest.takeWhile Char.isDigit = [] ∧ rest.dropWhile Char.isDigit = rest := by
            cases rest with
            | nil => exact ⟨rfl, rfl⟩
            | cons c cs =>
                have hc : c.isDigit = false := hrest c rfl
                simp [hc]
          have hskip : (blanks ++ (d :: ds) ++ rest).dropWhile isspace = (d :: ds) ++ rest := by
            rw [List.append_assoc, List.dropWhile_append_of_pos hblanks, List.cons_append,
              List.dropWhile_cons_of_neg (by simp [isspace_of_isDigit hd])]
          have hsign : takeSign ((d :: ds) ++ rest) = (false, (d :: ds) ++ rest) :=
            takeSign_of_isDigit hd (ds ++ rest)
          simp only [extractUint32, hskip, hsign, List.takeWhile_append_of_pos hdigits,
            List.dropWhile_append_of_pos hdigits, hstop.1, hstop.2, List.append_nil, if_neg hne,
            if_pos hlt, Bool.false_eq_true, if_false]

/-! ### Lists of pairs -/

/-- `text` lists the pairs, two numbers for each. -/
inductive Lists : List Char → List (Nat × Nat) → Prop where
  | nil : Lists [] []
  | cons {first second rest : List Char} {a b : Nat} {pairs : List (Nat × Nat)} : IsNumber first a →
      IsNumber second b → Apart second → Apart rest → Lists rest pairs →
      Lists (first ++ (second ++ rest)) ((a, b) :: pairs)

/-- What follows continues no number, and no number can be extracted from it: it starts none, or one
    that is out of range, or it is a sign without digits. -/
structure Ignored (text : List Char) : Prop where
  apart : Apart text
  extract : extractUint32 text = none

theorem Apart.append {text tail : List Char} (htext : Apart text) (htail : Apart tail) :
    Apart (text ++ tail) := by
  cases text with
  | nil => exact htail
  | cons c cs => exact htext

/-- One turn of the loop. -/
theorem readPairs_of_extract {s s' s'' : List Char} {a b : Nat}
    (hfirst : extractUint32 s = some (a, s')) (hsecond : extractUint32 s' = some (b, s'')) :
    readPairs s = (a, b) :: readPairs s'' := by
  rw [readPairs]
  split
  · rename_i hnone
    rw [hfirst] at hnone
    cases hnone
  · rename_i a' t' hsome
    rw [hfirst] at hsome
    cases hsome
    split
    · rename_i hnone
      rw [hsecond] at hnone
      cases hnone
    · rename_i b' t'' hsome
      rw [hsecond] at hsome
      cases hsome
      rfl

/-- The last turn of the loop. -/
theorem readPairs_of_none {s : List Char} (h : extractUint32 s = none) : readPairs s = [] := by
  rw [readPairs]
  split
  · rfl
  · rename_i hsome
    rw [h] at hsome
    cases hsome

/-- The loop reads the pairs that are listed and goes on behind them. -/
theorem readPairs_append {text tail : List Char} {pairs : List (Nat × Nat)} (h : Lists text pairs)
    (htail : Apart tail) : readPairs (text ++ tail) = pairs ++ readPairs tail := by
  induction h with
  | nil => rfl
  | @cons first second rest a b pairs hfirst hsecond hmiddle hrest _ ih =>
      have hbehind : Apart (rest ++ tail) := hrest.append htail
      have hextract := hfirst.extract (hmiddle.append hbehind)
      rw [List.append_assoc, List.append_assoc,
        readPairs_of_extract hextract (hsecond.extract hbehind), ih]
      rfl

/-- The text lists the pairs, and the rest of the file is ignored. -/
theorem readPairs_eq {text tail : List Char} {pairs : List (Nat × Nat)} (h : Lists text pairs)
    (htail : Ignored tail) : readPairs (text ++ tail) = pairs := by
  rw [readPairs_append h htail.apart, readPairs_of_none htail.extract, List.append_nil]

/-! ### Files -/

/-- From the text to the client. For every edge list and every text that lists its pairs, whatever
    stands behind them from where no number can be extracted, the converter writes the files it
    writes without that, and the server and the client load the graph of the list from them. -/
theorem text_reaches_clients (sort : List (Nat × Nat) → List (Nat × Nat)) (hsort : SortsPairs sort)
    (e : EdgeList) (text tail : List Char) (htext : Lists text e.pairs) (htail : Ignored tail)
    (mr : MemoryRegion) (lkey : Nat) :
    ∃ idx adj c, encodeText sort e.make_undirected false (text ++ tail) = .ok (idx, adj) ∧
      encodeText sort e.make_undirected false text = .ok (idx, adj) ∧
      clientContext idx (FamServer.mrMessage mr adj) (getEdgeList adj) lkey = .ok c ∧
      Encodes c e.graph := by
  obtain ⟨idx, adj, c, hencode, hclient, hloaded⟩ := exists_loaded hsort e mr lkey
  have hwhole : readPairs text = e.pairs := by
    have hlists : readPairs (text ++ []) = e.pairs := readPairs_eq htext ⟨by decide, rfl⟩
    rwa [List.append_nil] at hlists
  refine ⟨idx, adj, c, ?_, ?_, hclient, hloaded.encodes⟩
  · rw [encodeText, readPairs_eq htext htail]
    exact hencode
  · rw [encodeText, hwhole]
    exact hencode

/-- A single arc. -/
def oneArc : EdgeList where
  pairs := [(0, 1)]
  make_undirected := false
  ids := by decide
  fits := by decide
  degree_lt _ := Nat.lt_of_le_of_lt List.countP_le_length (by decide)

/-- A line with the arc, and a lone sign behind it, from where nothing more is read. -/
theorem text_reaches_clients_sign :
    ∃ idx adj c, encodeText (fun v => v.mergeSort fun p q => decide (PairLe p q)) false false
        (['0', ' ', '1'] ++ ['\n', '-', ' ', '2', ' ', '3']) = .ok (idx, adj) ∧
      clientContext idx (FamServer.mrMessage ⟨4096, 7⟩ adj) (getEdgeList adj) 9 = .ok c ∧
      Encodes c oneArc.graph := by
  have hzero : IsNumber ['0'] 0 :=
    @IsNumber.intro [] ['0'] (List.forall_mem_nil _) (by decide) (List.forall_mem_singleton.2 rfl)
      (by decide)
  have hone : IsNumber [' ', '1'] 1 :=
    @IsNumber.intro [' '] ['1'] (List.forall_mem_singleton.2 rfl) (by decide)
      (List.forall_mem_singleton.2 rfl) (by decide)
  have htext : Lists ['0', ' ', '1'] oneArc.pairs := .cons hzero hone (by decide) (by decide) .nil
  have hignored : Ignored ['\n', '-', ' ', '2', ' ', '3'] := ⟨by decide, by decide⟩
  obtain ⟨idx, adj, c, hencode, -, hclient, hencodes⟩ := text_reaches_clients _ sortsPairs_mergeSort
    oneArc ['0', ' ', '1'] ['\n', '-', ' ', '2', ' ', '3'] htext hignored ⟨4096, 7⟩ 9
  exact ⟨idx, adj, c, hencode, hclient, hencodes⟩

end FamGraph
