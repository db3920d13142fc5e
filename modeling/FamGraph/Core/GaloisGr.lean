/-
Module: FamGraph.Core.GaloisGr
Layer: Core
Purpose: The tools for Galois files, `fg2gr.cpp`, which writes an `.idx` and an `.adj` file as a
  version-1 `.gr` file, and `compare_gr.cpp`, which reads two `.gr` files side by side. An input
  stream is what is left of its file, an output stream what was written to it; a file that exists
  can be opened, read and written. The command line, the log and the progress bars are left out.
Trusted boundary: human-reviewed model of both tools; `readGr` is the file format
Main exports: readOne, writeAs, writeHeader, fg2gr, compareFor, compareHeaders, compareGr, GrFile,
  readGr
-/
import FamGraph.Core.VertexTable

namespace FamGraph.Galois

/-- `read_one<T>`: the word and what is left of the stream. -/
def readOne (size_of : Nat) (s : List UInt8) : Except String (Nat × List UInt8) :=
  let x := s.take size_of
  if x.length ≠ size_of then .error "can't read index data"
  else .ok (LittleEndian.decode x, s.drop size_of)

/-- `write_as<T>`: what is left of the input after `n` words, and the output with them. -/
def writeAs (size_of : Nat) :
    Nat → List UInt8 → List UInt8 → Except String (List UInt8 × List UInt8)
  | 0, input, o => .ok (input, o)
  | n + 1, input, o => do
      let (x, input) ← readOne size_of input
      writeAs size_of n input (o ++ LittleEndian.encode size_of x)

/-- `write_header` -/
def writeHeader (o : List UInt8) (n_v n_e : Nat) : List UInt8 :=
  let version := 1
  let edgedata_size := 0
  o ++ LittleEndian.encode 8 version ++ LittleEndian.encode 8 edgedata_size ++
  LittleEndian.encode 8 n_v ++
    LittleEndian.encode 8 n_e

/-- `main` of `fg2gr.cpp`: the file written. -/
def fg2gr (index adj : List UInt8) : Except String (List UInt8) := do
  let verts := numElements 8 index
  let edges := numElements 4 adj
  let os := writeHeader [] verts edges
  -- burn card
  let (_, idxstream) ← readOne 8 index
  let (_, os) ← writeAs 8 ((verts + (2 ^ 64 - 1)) % 2 ^ 64) idxstream os
  let os := os ++ LittleEndian.encode 8 edges
  let (_, os) ← writeAs 4 edges adj os
  return if edges &&& 1 ≠ 0 then os ++ LittleEndian.encode 4 0 else os

/-! ### Comparing -/

/-- What `compare_gr` can say: that the headers differ, an entry that differs, or what it caught. -/
inductive Report where
  | headersDoNotMatch
  | differs (index a b : Nat)
  | caught (what : String)
deriving DecidableEq, Repr

/-- `compare_for<T>`, from `i` on for `n` more words: the entries that differ, and what is left of
    the streams or what was thrown. -/
def compareFor (size_of : Nat) (i : Nat) : Nat → List UInt8 → List UInt8 →
    List Report × Except String (List UInt8 × List UInt8)
  | 0, streamA, streamB => ([], .ok (streamA, streamB))
  | n + 1, streamA, streamB =>
      match readOne size_of streamA with
      | .error e => ([], .error e)
      | .ok (a, streamA) =>
          match readOne size_of streamB with
          | .error e => ([], .error e)
          | .ok (b, streamB) =>
              let (reports, rest) := compareFor size_of (i + 1) n streamA streamB
              (if a ≠ b then .differs i a b :: reports else reports, rest)

/-- `compare_headers`: if they match, `|V|` and `|E|` of the first file, and what is left of the
    streams. -/
def compareHeaders (streamA streamB : List UInt8) :
    Except String (Bool × Nat × Nat × List UInt8 × List UInt8) := do
  let (vA, streamA) ← readOne 8 streamA
  let (weightA, streamA) ← readOne 8 streamA
  let (vertsA, streamA) ← readOne 8 streamA
  let (edgesA, streamA) ← readOne 8 streamA
  let (vB, streamB) ← readOne 8 streamB
  let (weightB, streamB) ← readOne 8 streamB
  let (vertsB, streamB) ← readOne 8 streamB
  let (edgesB, streamB) ← readOne 8 streamB
  let matched := vA = vB ∨ weightA = weightB ∨ vertsA = vertsB ∨ edgesA = edgesB
  return (matched, vertsA, edgesA, streamA, streamB)

/-- `main` of `compare_gr.cpp`: its reports, in order. -/
def compareGr (inputA inputB : List UInt8) : List Report :=
  match compareHeaders inputA inputB with
  | .error e => [.caught e]
  | .ok (false, _, _, _, _) => [.headersDoNotMatch]
  | .ok (true, V, E, inputA, inputB) =>
      match compareFor 8 0 V inputA inputB with
      | (reports, .error e) => reports ++ [.caught e]
      | (reports, .ok (inputA, inputB)) =>
          match compareFor 4 0 E inputA inputB with
          | (reports', .error e) => reports ++ reports' ++ [.caught e]
          | (reports', .ok _) => reports ++ reports'

/-! ### The format -/

/-- A version-1 `.gr` file without edge data, read: where the list of each vertex ends, and the
    destinations. -/
structure GrFile where
  num_vertices : Nat
  num_edges : Nat
  ends : List Nat
  dests : List Nat
deriving DecidableEq, Repr

/-- Four header words, as many end offsets as vertices, as many destinations as edges, and four
    bytes of padding if these are odd in number. -/
def readGr (file : List UInt8) : Option GrFile :=
  let V := LittleEndian.wordAt 8 file 2
  let E := LittleEndian.wordAt 8 file 3
  if LittleEndian.wordAt 8 file 0 = 1 ∧ LittleEndian.wordAt 8 file 1 = 0 ∧
      file.length = 32 + 8 * V + 4 * E + 4 * (E % 2) then
    some
      { num_vertices := V
        num_edges := E
        ends := (List.range V).map fun v => LittleEndian.wordAt 8 (file.drop 32) v
        dests := (List.range E).map fun e => LittleEndian.wordAt 4 (file.drop (32 + 8 * V)) e }
  else none

/-- The destinations in the range of a vertex. -/
def GrFile.row (g : GrFile) (v : Nat) : List Nat :=
  let first := if v = 0 then 0 else g.ends.getD (v - 1) 0
  (g.dests.take (g.ends.getD v 0)).drop first

end FamGraph.Galois
