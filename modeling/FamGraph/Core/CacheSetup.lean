/-
Module: FamGraph.Core.CacheSetup
Layer: Core
Purpose: How `on_completion` chooses a vertex cache before it starts a kernel, once the server's
  memory region is known. The two pointers of `client_context` are not initialised by its
  constructor, so a pointer may be indeterminate; what a cache file holds is up to the two readers.
  The connections and the clock are left out.
Trusted boundary: human-reviewed model of the cache branch of `on_completion`; `BinReader` and
  `CacheManager` are given by what they load
Main exports: endsWith, Pointer, CachePointers, ClientOptions, CacheReaders, cacheSetup, startKernel
-/
import FamGraph.Core.Packing

namespace FamGraph

/-- `endsWith`, on the characters of two C strings. -/
def endsWith (str suffix : List Char) : Bool :=
  if suffix.length > str.length then false
  else str.drop (str.length - suffix.length) = suffix

/-- A pointer; `indeterminate` if nothing was stored in it yet. -/
inductive Pointer (α : Type) where
  | indeterminate
  | null
  | to (target : α)

/-- `cacheMap` and `cacheManager` of `client_context`. -/
structure CachePointers where
  cacheMap : Pointer CacheMap
  cacheManager : Pointer CacheManager

/-- As the constructor of `client_context` leaves them. -/
def CachePointers.constructed : CachePointers where
  cacheMap := .indeterminate
  cacheManager := .indeterminate

/-- The kernels `on_completion` can start. -/
inductive Kernel where
  | bfs
  | pagerankDelta
  | connectedComponents
  | kcore
  | mis
deriving DecidableEq, Repr

/-- What `on_completion` reads of the command line; `Ratio` is the type `double`. -/
structure ClientOptions (Ratio : Type) where
  kernel : String
  cache_ratio : Ratio
  cache_file_path : Option String
  double_buffer : Bool

/-- `BinReader::read_bin_cache`, and the constructor of `CacheManager` with `load`. -/
structure CacheReaders (Ratio : Type) where
  read_bin_cache : List Char → Ratio → Nat → Except String CacheMap
  load : List Char → Nat → Ratio → Except String CacheManager

variable {Ratio : Type} [Zero Ratio] [DecidableEq Ratio]

/-- The cache pointers `on_completion` hands to the kernel. -/
def cacheSetup (readers : CacheReaders Ratio) (vm : ClientOptions Ratio) (num_vertices : Nat)
    (ctx : CachePointers) : Except String CachePointers :=
  if vm.cache_ratio ≠ 0 then
    match vm.cache_file_path with
    | none => .error "Not providing cache file path!"
    | some path => do
        let cache_file_path := path.toList
        if endsWith cache_file_path ".bin_cache".toList then
          let cache_map ← readers.read_bin_cache cache_file_path vm.cache_ratio num_vertices
          return { cacheMap := .to cache_map, cacheManager := .null }
        else if endsWith cache_file_path ".cache".toList then
          let cacheManager ← readers.load cache_file_path num_vertices vm.cache_ratio
          return { cacheMap := .null, cacheManager := .to cacheManager }
        else return ctx
  else .ok { cacheMap := .null, cacheManager := .null }

/-- The choice by `ctx->kernel`. -/
def kernelOf : String → Except String Kernel
  | "bfs" => .ok .bfs
  | "pagerank_delta" => .ok .pagerankDelta
  | "CC" => .ok .connectedComponents
  | "kcore" => .ok .kcore
  | "MIS" => .ok .mis
  | _ => .error "Unrecognized Kernel"

/-- `on_completion` from the test of `double-buffer` on: the kernel started, and the pointers it
    finds. -/
def startKernel (readers : CacheReaders Ratio) (vm : ClientOptions Ratio) (num_vertices : Nat) :
    Except String (CachePointers × Kernel) :=
  if vm.double_buffer then .error "double buffering deprecated"
  else do
    let pointers ← cacheSetup readers vm num_vertices .constructed
    let kernel ← kernelOf vm.kernel
    return (pointers, kernel)

end FamGraph
