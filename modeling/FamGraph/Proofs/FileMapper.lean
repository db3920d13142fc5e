/-
Module: FamGraph.Proofs.FileMapper
Layer: Proofs
Purpose: The server's load in chunks. The offset of the mapper is a multiple of the huge page until
  the file is mapped, so every chunk but the last is whole and the rounding of the last is the
  rounding of the memory; place in memory and place in the file are one number. At the end the
  memory begins with the words of the file, which is the edge list the server is said to hold. All
  this needs the mappings to succeed: with huge pages they do on a hugetlbfs only, and the loop
  takes `MAP_FAILED` for memory.
Trusted boundary: human-reviewed assumption `MapsFile` on the operating system
Main exports: AdjFile, MapsFile, Contiguous, next_spec, Loading, CopiesFile,
  get_edge_list_copies_iff, getEdgeListLoop_words
-/
import FamGraph.Core.FileMapper
import FamGraph.Proofs.VertexTable

namespace FamGraph

/-- The `.adj` file, and whether it lies on a hugetlbfs of 2 MB pages. There a file consists of
    whole pages. Sizes are `off_t`. -/
structure AdjFile where
  bytes : List UInt8
  hugetlbfs : Bool
  size_lt : bytes.length < 2 ^ 63
  pages : hugetlbfs = true → 2 ^ 21 ∣ bytes.length

/-- What `mmap` does with a file at a multiple of the huge page: a mapping that ends within the file
    gives that part of it, but with `MAP_HUGETLB` a file that is not on a hugetlbfs is not mapped at
    all. -/
structure MapsFile (mmap : Mmap) (file : AdjFile) : Prop where
  maps :
    ∀ huge length offset, (huge = true → file.hugetlbfs = true) → 2 ^ 21 ∣ offset → 0 < length →
    offset + length ≤ file.bytes.length →
      mmap huge length offset = some ((file.bytes.drop offset).take length)
  fails : file.hugetlbfs = false → ∀ length offset, mmap true length offset = none

/-! ### Consecutive copies -/

/-- The copies take the file from `first` to `last`, each from where the one before ended. -/
def Contiguous : Nat → List Copy → Nat → Prop
  | first, [], last => first = last
  | first, c :: copies, last => c.offset = first ∧ Contiguous (first + c.len) copies last

/-- How often byte `i` of the file is copied. -/
def timesCopied (copies : List Copy) (i : Nat) : Nat :=
  copies.countP fun c => c.offset ≤ i ∧ i < c.offset + c.len

section Copies

variable {first last i : Nat} {copies : List Copy}

theorem Contiguous.snoc (h : Contiguous first copies last) {c : Copy} (hc : c.offset = last) :
    Contiguous first (copies ++ [c]) (last + c.len) := by
  induction copies generalizing first with
  | nil =>
      obtain rfl : first = last := h
      exact ⟨hc, rfl⟩
  | cons c' copies ih => exact ⟨h.1, ih h.2⟩

/-- Together they have the length of what they take. -/
theorem Contiguous.sum_eq (h : Contiguous first copies last) :
    first + (copies.map Copy.len).sum = last := by
  induction copies generalizing first with
  | nil => exact h
  | cons c copies ih =>
      rw [List.map_cons, List.sum_cons, ← Nat.add_assoc]
      exact ih h.2

theorem Contiguous.timesCopied_of_lt (h : Contiguous first copies last) (hi : i < first) :
    timesCopied copies i = 0 := by
  induction copies generalizing first with
  | nil => rfl
  | cons c copies ih =>
      have hc : ¬(c.offset ≤ i ∧ i < c.offset + c.len) := by
        have hfirst := h.1
        omega
      rw [timesCopied, List.countP_cons_of_neg (by simpa using hc)]
      exact ih h.2 (by omega)

/-- Every byte between is copied once. -/
theorem Contiguous.timesCopied_eq_one (h : Contiguous first copies last) (hfirst : first ≤ i)
    (hlast : i < last) :
    timesCopied copies i = 1 := by
  induction copies generalizing first with
  | nil =>
      obtain rfl : first = last := h
      omega
  | cons c copies ih =>
      obtain ⟨hoffset, hrest⟩ := h
      rcases Nat.lt_or_ge i (first + c.len) with hi | hi
      · have hc : c.offset ≤ i ∧ i < c.offset + c.len := by omega
        have hzero : timesCopied copies i = 0 := hrest.timesCopied_of_lt hi
        rw [timesCopied] at hzero
        rw [timesCopied, List.countP_cons_of_pos (by simpa using hc), hzero]
      · have hc : ¬(c.offset ≤ i ∧ i < c.offset + c.len) := by omega
        rw [timesCopied, List.countP_cons_of_neg (by simpa using hc)]
        exact ih hrest hi

end Copies

/-! ### One chunk -/

/-- The size of the memory: that of the array, rounded up to huge pages if they are used. -/
theorem rdmaMmapSize_eq {edges_count : Nat} (use_HP : Bool) (h : 4 * edges_count < 2 ^ 63) :
    rdmaMmapSize edges_count use_HP = if use_HP then alignUp (4 * edges_count)
    else 4 * edges_count := by
  have hmod : 4 * edges_count % 2 ^ 64 = 4 * edges_count := Nat.mod_eq_of_lt (by omega)
  rw [rdmaMmapSize, hmod]

/-- A mapper within its file maps a chunk that is not empty and ends within the memory, at a
    multiple of the huge page or at the end of the file. -/
theorem next_spec {m : FileMapper} (hpos : 0 < m.chunk_size) (hchunk : 2 ^ 21 ∣ m.chunk_size)
    (hsize : m.filesize < 2 ^ 63) (hoffset : 2 ^ 21 ∣ m.offset) (hnext : m.offset < m.filesize) :
    ∃ len, m.next = ((len, m.offset), { m with offset := m.offset + len }) ∧ 0 < len ∧
      m.offset + len ≤ (if m.use_HP then alignUp m.filesize else m.filesize) ∧
      (2 ^ 21 ∣ m.offset + len ∨ m.filesize ≤ m.offset + len) := by
  obtain ⟨chunks, hchunks⟩ := hchunk
  obtain ⟨pages, hpages⟩ := hoffset
  have hrest : (m.filesize + (2 ^ 64 - m.offset)) % 2 ^ 64 = m.filesize - m.offset := by omega
  have hlen : ∀ len, m.offset + len < 2 ^ 64 →
      (if m.use_HP then alignUp (min m.chunk_size (m.filesize - m.offset))
        else min m.chunk_size (m.filesize - m.offset)) = len →
      m.next = ((len, m.offset), { m with offset := m.offset + len }) := by
    rintro len hlt rfl
    simp only [FileMapper.next, hrest, Nat.mod_eq_of_lt hlt]
  cases hHP : m.use_HP with
  | false =>
      simp only [hHP, Bool.false_eq_true, if_false] at hlen ⊢
      refine ⟨_, hlen _ ?_ rfl, ?_, ?_, ?_⟩ <;> omega
  | true =>
      simp only [hHP, if_true] at hlen ⊢
      refine ⟨_, hlen _ ?_ rfl, ?_, ?_, ?_⟩ <;> simp only [alignUp] <;> omega

theorem memcpy_spec {memory fptr : List UInt8} {array len : Nat} (hfptr : len ≤ fptr.length)
    (hmemory : array + len ≤ memory.length) :
    ∃ memory', memcpy memory array fptr len = some memory' ∧ memory'.length = memory.length ∧
      (∀ i < array, memory'[i]? = memory[i]?) ∧ ∀ i < len, memory'[array + i]? = fptr[i]? := by
  have htake : (memory.take array).length = array := by
    rw [List.length_take]
    omega
  have hcopy : (fptr.take len).length = len := by
    rw [List.length_take]
    omega
  refine ⟨_, if_pos ⟨hfptr, hmemory⟩, ?_, ?_, ?_⟩
  · rw [List.length_append, List.length_append, htake, hcopy, List.length_drop]
    omega
  · intro i hi
    rw [List.append_assoc, List.getElem?_append_left (by omega), List.getElem?_take_of_lt hi]
  · intro i hi
    rw [List.append_assoc, List.getElem?_append_right (by omega), htake, Nat.add_sub_cancel_left,
      List.getElem?_append_left (by omega), List.getElem?_take_of_lt hi]

/-! ### The loop -/

/-- What holds each time the loop asks for another chunk: place in memory and place in the file are
    the same, what was copied is the file so far, and the copies are consecutive. -/
structure Loading (chunk_size : Nat) (use_HP : Bool) (adj_file : List UInt8) (s : LoadState) :
    Prop where
  chunk_size_eq : s.get_mapped_chunk.chunk_size = chunk_size
  filesize_eq : s.get_mapped_chunk.filesize = 4 * numElements 4 adj_file
  use_HP_eq : s.get_mapped_chunk.use_HP = use_HP
  array_eq : s.array = s.get_mapped_chunk.offset
  place :
    2 ^ 21 ∣ s.get_mapped_chunk.offset ∨ 4 * numElements 4 adj_file ≤ s.get_mapped_chunk.offset
  inside : s.get_mapped_chunk.offset ≤ rdmaMmapSize (numElements 4 adj_file) use_HP
  length_memory : s.memory.length = rdmaMmapSize (numElements 4 adj_file) use_HP
  contents :
    ∀ i < s.get_mapped_chunk.offset, i < 4 * numElements 4 adj_file → s.memory[i]? = adj_file[i]?
  contiguous : Contiguous 0 s.copies s.get_mapped_chunk.offset
  copies : ∀ c ∈ s.copies, 2 ^ 21 ∣ c.offset ∧ c.array = c.offset

section Loop

variable {mmap : Mmap} {file : AdjFile} {chunk_size : Nat} {use_HP : Bool} {s : LoadState}

theorem loading_init :
    Loading chunk_size use_HP file.bytes
      (getEdgeListInit chunk_size use_HP (numElements 4 file.bytes)) where
  chunk_size_eq := rfl
  filesize_eq := by
    have hwords := mul_numElements_le 4 file.bytes
    have hsize := file.size_lt
    rw [Nat.mul_comm]
    exact Nat.mod_eq_of_lt (by omega)
  use_HP_eq := rfl
  array_eq := rfl
  place := .inl (Nat.dvd_zero _)
  inside := Nat.zero_le _
  length_memory := List.length_replicate
  contents := fun i hi => absurd hi (Nat.not_lt_zero i)
  contiguous := rfl
  copies c hc := absurd hc List.not_mem_nil

/-- On a hugetlbfs the words are the whole file, and nothing is rounded. -/
theorem AdjFile.rdmaMmapSize_le (file : AdjFile) (hHP : use_HP = true → file.hugetlbfs = true) :
    rdmaMmapSize (numElements 4 file.bytes) use_HP ≤ file.bytes.length := by
  have hwords := mul_numElements_le 4 file.bytes
  have hsize := file.size_lt
  rw [rdmaMmapSize_eq use_HP (by omega)]
  cases use_HP with
  | false => exact hwords
  | true =>
      obtain ⟨pages, hpages⟩ := file.pages (hHP rfl)
      simp only [if_true, alignUp, numElements] at hwords ⊢
      omega

/-- The next turn maps a part of the file that begins where the loop stands and ends within the
    memory. -/
theorem Loading.mapped (h : Loading chunk_size use_HP file.bytes s) (hmmap : MapsFile mmap file)
    (hpos : 0 < chunk_size) (hchunk : 2 ^ 21 ∣ chunk_size)
    (hHP : use_HP = true → file.hugetlbfs = true)
    (hlt : s.get_mapped_chunk.offset < 4 * numElements 4 file.bytes) :
    ∃ len, s.get_mapped_chunk.next = ((len, s.get_mapped_chunk.offset),
        { s.get_mapped_chunk with offset := s.get_mapped_chunk.offset + len }) ∧ 0 < len ∧
      mmap s.get_mapped_chunk.use_HP len s.get_mapped_chunk.offset =
        some ((file.bytes.drop s.get_mapped_chunk.offset).take len) ∧
      s.get_mapped_chunk.offset + len ≤ rdmaMmapSize (numElements 4 file.bytes) use_HP ∧
      (2 ^ 21 ∣ s.get_mapped_chunk.offset + len ∨
        4 * numElements 4 file.bytes ≤ s.get_mapped_chunk.offset + len) := by
  have hwords := mul_numElements_le 4 file.bytes
  have hsize := file.size_lt
  have hplace : 2 ^ 21 ∣ s.get_mapped_chunk.offset := h.place.resolve_right (by omega)
  obtain ⟨len, hnext, hlen, hinside, hplace'⟩ := next_spec (by rw [h.chunk_size_eq]; exact hpos)
    (by rw [h.chunk_size_eq]; exact hchunk) (by rw [h.filesize_eq]; omega) hplace
    (by rw [h.filesize_eq]; exact hlt)
  rw [h.filesize_eq] at hplace'
  rw [h.use_HP_eq, h.filesize_eq, ← rdmaMmapSize_eq use_HP (by omega)] at hinside
  have hwithin : s.get_mapped_chunk.offset + len ≤ file.bytes.length :=
    Nat.le_trans hinside (file.rdmaMmapSize_le hHP)
  exact ⟨len, hnext, hlen, hmmap.maps _ len _ (by rw [h.use_HP_eq]; exact hHP) hplace hlen hwithin,
    hinside, hplace'⟩

/-- One turn of the loop copies a chunk to where it belongs. -/
theorem Loading.copyChunk (h : Loading chunk_size use_HP file.bytes s) (hmmap : MapsFile mmap file)
    (hpos : 0 < chunk_size) (hchunk : 2 ^ 21 ∣ chunk_size)
    (hHP : use_HP = true → file.hugetlbfs = true) (hnext : s.get_mapped_chunk.hasNext = true) :
    ∃ s', LoadState.copyChunk mmap s = some s' ∧ Loading chunk_size use_HP file.bytes s' ∧
      4 * numElements 4 file.bytes - s'.get_mapped_chunk.offset <
        4 * numElements 4 file.bytes - s.get_mapped_chunk.offset := by
  have hlt : s.get_mapped_chunk.offset < 4 * numElements 4 file.bytes := by
    have hoffset := of_decide_eq_true hnext
    rw [h.filesize_eq] at hoffset
    exact hoffset
  obtain ⟨len, hmapped, hlen, hptr, hinside, hplace'⟩ := h.mapped hmmap hpos hchunk hHP hlt
  have hfptr : len ≤ ((file.bytes.drop s.get_mapped_chunk.offset).take len).length := by
    have hwithin := Nat.le_trans hinside (file.rdmaMmapSize_le hHP)
    rw [List.length_take, List.length_drop]
    omega
  have hmemory : s.array + len ≤ s.memory.length := by
    rw [h.array_eq, h.length_memory]
    exact hinside
  obtain ⟨memory, hcopied, hlength, hbefore, hcopy⟩ := memcpy_spec hfptr hmemory
  have hturn : LoadState.copyChunk mmap s = some
      { get_mapped_chunk := { s.get_mapped_chunk with offset := s.get_mapped_chunk.offset + len }
        array := s.array + len
        memory := memory
        copies := s.copies ++
          [{ offset := s.get_mapped_chunk.offset, len := len, array := s.array }] } := by
    simp only [LoadState.copyChunk, hmapped, hptr, Option.bind_some, hcopied, Option.map_some]
  refine ⟨_, hturn, ?_, by dsimp only; omega⟩
  refine ⟨h.chunk_size_eq, h.filesize_eq, h.use_HP_eq, ?_, hplace', hinside,
    hlength.trans h.length_memory, ?_, h.contiguous.snoc rfl, ?_⟩
  · dsimp only
    rw [h.array_eq]
  · intro i hi hwords
    dsimp only at hi ⊢
    rcases Nat.lt_or_ge i s.get_mapped_chunk.offset with hold | hnew
    · rw [hbefore i (by rw [h.array_eq]; exact hold)]
      exact h.contents i hold hwords
    · obtain ⟨k, rfl⟩ := Nat.exists_eq_add_of_le hnew
      have hk : k < len := by omega
      have hplaced := hcopy k hk
      rw [h.array_eq, List.getElem?_take_of_lt hk, List.getElem?_drop] at hplaced
      exact hplaced
  · intro c hc
    rcases List.mem_append.1 hc with hold | hlast
    · exact h.copies c hold
    · rw [List.mem_singleton.1 hlast]
      exact ⟨h.place.resolve_right (Nat.not_le.2 hlt), h.array_eq⟩

/-- The mappings that the loop asks for succeed: huge pages are off, or they are on a hugetlbfs, or
    there is nothing to map. -/
def Mappable (use_HP : Bool) (file : AdjFile) : Prop :=
  use_HP = false ∨ file.hugetlbfs = true ∨ numElements 4 file.bytes = 0

/-- The loop ends, with the whole file copied. -/
theorem getEdgeListLoop_total (hmmap : MapsFile mmap file) (hpos : 0 < chunk_size)
    (hchunk : 2 ^ 21 ∣ chunk_size) (hmappable : Mappable use_HP file) :
    ∃ fuel s, getEdgeListLoop mmap chunk_size use_HP file.bytes fuel = some s ∧
      Loading chunk_size use_HP file.bytes s ∧
      4 * numElements 4 file.bytes ≤ s.get_mapped_chunk.offset := by
  obtain ⟨s, hrun, hs, hdone⟩ := Loop.run_total (Loading chunk_size use_HP file.bytes)
    (fun s => 4 * numElements 4 file.bytes - s.get_mapped_chunk.offset)
    (fun s hs hnext => by
      apply hs.copyChunk hmmap hpos hchunk _ hnext
      intro hHP
      rcases hmappable with hoff | hfs | hempty
      · rw [hoff] at hHP
        cases hHP
      · exact hfs
      · have hoffset := of_decide_eq_true hnext
        rw [hs.filesize_eq, hempty] at hoffset
        exact absurd hoffset (Nat.not_lt_zero _))
    loading_init (Nat.le_refl _)
  have hoffset := of_decide_eq_false hdone
  rw [hs.filesize_eq] at hoffset
  exact ⟨_, s, hrun, hs, Nat.not_lt.1 hoffset⟩

/-- With huge pages on another file system the first copy is a fault. -/
theorem getEdgeListLoop_fault (hmmap : MapsFile mmap file) (hfs : file.hugetlbfs = false)
    (hwords : numElements 4 file.bytes ≠ 0) (fuel : Nat) :
    getEdgeListLoop mmap chunk_size true file.bytes fuel = none := by
  have hinit : Loading chunk_size true file.bytes
      (getEdgeListInit chunk_size true (numElements 4 file.bytes)) := loading_init
  have hnext : (getEdgeListInit chunk_size true
      (numElements 4 file.bytes)).get_mapped_chunk.hasNext = true := by
    apply decide_eq_true
    rw [hinit.filesize_eq]
    exact Nat.mul_pos (by decide) (Nat.pos_of_ne_zero hwords)
  cases fuel with
  | zero => exact if_pos hnext
  | succ fuel =>
      have hturn : LoadState.copyChunk mmap
          (getEdgeListInit chunk_size true (numElements 4 file.bytes)) = none := by
        rw [LoadState.copyChunk, hinit.use_HP_eq]
        dsimp only
        rw [hmmap.fails hfs]
        rfl
      rw [getEdgeListLoop, Loop.run, if_pos hnext, hturn]
      rfl

/-- The memory begins with the words the server is said to hold. -/
theorem getEdgeListLoop_words (hmmap : MapsFile mmap file) (hpos : 0 < chunk_size)
    (hchunk : 2 ^ 21 ∣ chunk_size) (hmappable : Mappable use_HP file) {fuel : Nat}
    (hrun : getEdgeListLoop mmap chunk_size use_HP file.bytes fuel = some s) :
    (List.range (numElements 4 file.bytes)).map (LittleEndian.wordAt 4 s.memory) =
      getEdgeList file.bytes := by
  obtain ⟨fuel', s', hrun', hs, hdone⟩ := getEdgeListLoop_total hmmap hpos hchunk hmappable
  obtain rfl : s = s' := Loop.run_unique hrun hrun'
  have htake : s.memory.take (4 * numElements 4 file.bytes) =
      file.bytes.take (4 * numElements 4 file.bytes) := by
    apply List.ext_getElem?
    intro i
    rcases Nat.lt_or_ge i (4 * numElements 4 file.bytes) with hi | hi
    · rw [List.getElem?_take_of_lt hi, List.getElem?_take_of_lt hi]
      exact hs.contents i (by omega) hi
    · rw [List.getElem?_take_eq_none hi, List.getElem?_take_eq_none hi]
  rw [getEdgeList]
  apply List.map_congr_left
  intro v hv
  have hword : 4 * (v + 1) ≤ 4 * numElements 4 file.bytes :=
    Nat.mul_le_mul_left 4 (List.mem_range.1 hv)
  rw [← LittleEndian.wordAt_take s.memory hword, htake, LittleEndian.wordAt_take file.bytes hword]

/-! ### Whole files -/

/-- The loop ends; every mapping begins at a multiple of 2 MB, each where the one before ended, from
    0 on; every byte of the array is copied once, to its own place, where it is found at the end;
    and the bytes written are not more than the memory has. -/
def CopiesFile (mmap : Mmap) (chunk_size : Nat) (use_HP : Bool) (file : AdjFile) : Prop :=
  ∃ fuel s last, getEdgeListLoop mmap chunk_size use_HP file.bytes fuel = some s ∧
    (∀ c ∈ s.copies, 2 ^ 21 ∣ c.offset) ∧ Contiguous 0 s.copies last ∧
    (∀ i < 4 * numElements 4 file.bytes, timesCopied s.copies i = 1 ∧
      s.memory[i]? = file.bytes[i]? ∧ ∀ c ∈ s.copies, c.offset ≤ i → i < c.offset + c.len →
      c.array + (i - c.offset) = i) ∧
    (s.copies.map Copy.len).sum ≤ rdmaMmapSize (numElements 4 file.bytes) use_HP

theorem copiesFile_of_mappable (hmmap : MapsFile mmap file) (hpos : 0 < chunk_size)
    (hchunk : 2 ^ 21 ∣ chunk_size) (hmappable : Mappable use_HP file) :
    CopiesFile mmap chunk_size use_HP file := by
  obtain ⟨fuel, s, hrun, hs, hdone⟩ := getEdgeListLoop_total hmmap hpos hchunk hmappable
  refine ⟨fuel, s, _, hrun, fun c hc => (hs.copies c hc).1, hs.contiguous, ?_, ?_⟩
  · intro i hi
    refine ⟨hs.contiguous.timesCopied_eq_one (Nat.zero_le i) (by omega),
      hs.contents i (by omega) hi, ?_⟩
    intro c hc hoffset hlen
    rw [(hs.copies c hc).2]
    omega
  · have hsum := hs.contiguous.sum_eq
    have hinside := hs.inside
    omega

/-- The loop copies the whole file just if the mappings it asks for succeed. -/
theorem get_edge_list_copies_iff (mmap : Mmap) (file : AdjFile) (hmmap : MapsFile mmap file)
    (chunk_size : Nat) (hpos : 0 < chunk_size) (hchunk : 2 ^ 21 ∣ chunk_size) (use_HP : Bool) :
    CopiesFile mmap chunk_size use_HP file ↔
      use_HP = false ∨ file.hugetlbfs = true ∨ numElements 4 file.bytes = 0 := by
  refine ⟨fun hcopies => ?_, copiesFile_of_mappable hmmap hpos hchunk⟩
  by_contra hnot
  push Not at hnot
  obtain ⟨hHP, hfs, hwords⟩ := hnot
  obtain ⟨fuel, s, last, hrun, -⟩ := hcopies
  rw [Bool.eq_true_of_not_eq_false hHP,
    getEdgeListLoop_fault hmmap (Bool.eq_false_of_not_eq_true hfs) hwords] at hrun
  cases hrun

end Loop

/-- A kernel that maps what it must and nothing else. -/
def AdjFile.mmap (file : AdjFile) : Mmap := fun huge length offset =>
  if huge && !file.hugetlbfs then none else some ((file.bytes.drop offset).take length)

theorem AdjFile.mapsFile_mmap (file : AdjFile) : MapsFile file.mmap file where
  maps huge length offset hhuge _ _ _ := by
    have hmaps : (huge && !file.hugetlbfs) = false := by
      cases huge with
      | false => rfl
      | true => rw [hhuge rfl, Bool.not_true, Bool.and_false]
    rw [mmap, hmaps]
    rfl
  fails hfs length offset := by
    rw [mmap, hfs]
    rfl

/-- One word and a stray byte, on any other file system. -/
def regularFile : AdjFile where
  bytes := [1, 2, 3, 4, 5]
  hugetlbfs := false
  size_lt := by decide
  pages h := absurd h (by decide)

/-- One page of a hugetlbfs. -/
def hugePage : AdjFile where
  bytes := List.replicate (2 ^ 21) 7
  hugetlbfs := true
  size_lt := by
    rw [List.length_replicate]
    decide
  pages _ := by rw [List.length_replicate]

/-- With the chunk size of the server, the word is copied without huge pages, and the page with
    them. -/
theorem get_edge_list_copies_page :
    CopiesFile regularFile.mmap FileMapper.defaultChunk false regularFile ∧
      CopiesFile hugePage.mmap FileMapper.defaultChunk true hugePage :=
  ⟨(get_edge_list_copies_iff _ regularFile regularFile.mapsFile_mmap _ (by decide)
      ⟨15360, by decide⟩ false).2 (.inl rfl),
    (get_edge_list_copies_iff _ hugePage hugePage.mapsFile_mmap _ (by decide)
      ⟨15360, by decide⟩ true).2 (.inr (.inl rfl))⟩

/-- Asked for huge pages on a file that is not on a hugetlbfs, the server copies from
    `MAP_FAILED`. -/
theorem get_edge_list_faults : MapsFile regularFile.mmap regularFile ∧
    ¬ CopiesFile regularFile.mmap FileMapper.defaultChunk true regularFile := by
  refine ⟨regularFile.mapsFile_mmap, fun ⟨fuel, s, last, hrun, _⟩ => ?_⟩
  have hfault :
      getEdgeListLoop regularFile.mmap FileMapper.defaultChunk true regularFile.bytes fuel =
      none := getEdgeListLoop_fault regularFile.mapsFile_mmap rfl (by decide) fuel
  rw [hfault] at hrun
  cases hrun

end FamGraph
