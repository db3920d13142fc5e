/-
Module: FamGraph.Core.FileMapper
Layer: Core
Purpose: How the server loads the edge array: `file_mapper` maps the `.adj` file chunk by chunk, and
  the loop of `get_edge_list` copies each chunk behind the one before. `mmap` belongs to the
  operating system and is a parameter, which sees whether `MAP_HUGETLB` is among the flags and may
  fail. The file can be opened, and the memory it is copied to has been mapped and registered.
Trusted boundary: human-reviewed model of `file_mapper` and the loop of `get_edge_list`
Main exports: FileMapper, FileMapper.hasNext, FileMapper.next, Mmap, memcpy, getEdgeListInit,
  getEdgeListLoop
-/
import FamGraph.Core.FamServer
import FamGraph.Core.GenericCtx
import FamGraph.Foundation.Loop

namespace FamGraph

/-- `file_mapper`, without the descriptor of the file. -/
structure FileMapper where
  chunk_size : Nat
  offset : Nat
  filesize : Nat
  use_HP : Bool
deriving DecidableEq, Repr

/-- `default_chunk`, 30 GB. -/
def FileMapper.defaultChunk : Nat := 30 * 2 ^ 30

/-- `has_next` -/
def FileMapper.hasNext (m : FileMapper) : Bool := m.offset < m.filesize

/-- `operator()`: the length and the offset it maps, and what becomes of the mapper. -/
def FileMapper.next (m : FileMapper) : (Nat × Nat) × FileMapper :=
  let length := min m.chunk_size ((m.filesize + (2 ^ 64 - m.offset)) % 2 ^ 64)
  let length := if m.use_HP then alignUp length else length
  ((length, m.offset), { m with offset := (m.offset + length) % 2 ^ 64 })

/-- `mmap` of the file, private and for reading: whether `MAP_HUGETLB` is asked for, the length and
    the offset, to what can be read there, or to `MAP_FAILED`. -/
abbrev Mmap := Bool → Nat → Nat → Option (List UInt8)

/-- `memcpy` to place `array` of a memory, which takes `len` bytes of what is mapped: nothing if
    either ends before. -/
def memcpy (memory : List UInt8) (array : Nat) (fptr : List UInt8) (len : Nat) :
    Option (List UInt8) :=
  if len ≤ fptr.length ∧ array + len ≤ memory.length then
    some (memory.take array ++ fptr.take len ++ memory.drop (array + len))
  else none

/-- A call of `memcpy`: the place in the file, the length, and the place in the memory. -/
structure Copy where
  offset : Nat
  len : Nat
  array : Nat
deriving DecidableEq, Repr

/-- The state of the loop; `copies` lists the calls of `memcpy` so far. -/
structure LoadState where
  get_mapped_chunk : FileMapper
  array : Nat
  memory : List UInt8
  copies : List Copy

/-- What `RDMA_mmap_unique` allocates is zero, and `file_mapper` gets the size of the array in
    bytes. -/
def getEdgeListInit (chunk_size : Nat) (use_HP : Bool) (edges_count : Nat) : LoadState :=
  { get_mapped_chunk :=
      { chunk_size := chunk_size
        offset := 0
        filesize := edges_count * 4 % 2 ^ 64
        use_HP := use_HP }
    array := 0
    memory := List.replicate (rdmaMmapSize edges_count use_HP) 0
    copies := [] }

/-- The body of the loop. -/
def LoadState.copyChunk (mmap : Mmap) (s : LoadState) : Option LoadState :=
  let ((len, offset), get_mapped_chunk) := s.get_mapped_chunk.next
  -- `MAP_FAILED` passes the test `!ptr`, and the copy from there is a fault
  (mmap s.get_mapped_chunk.use_HP len offset).bind fun fptr =>
    (memcpy s.memory s.array fptr len).map fun memory =>
      { get_mapped_chunk := get_mapped_chunk
        array := s.array + len
        memory := memory
        copies := s.copies ++ [{ offset := offset, len := len, array := s.array }] }

/-- The loop of `get_edge_list`, for a given chunk size. -/
def getEdgeListLoop (mmap : Mmap) (chunk_size : Nat) (use_HP : Bool) (adj_file : List UInt8)
    (fuel : Nat) : Option LoadState :=
  let edges_count := numElements 4 adj_file
  Loop.run (fun s => s.get_mapped_chunk.hasNext) (LoadState.copyChunk mmap) fuel
    (getEdgeListInit chunk_size use_HP edges_count)

end FamGraph
