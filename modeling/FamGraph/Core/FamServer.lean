/-
Module: FamGraph.Core.FamServer
Layer: Core
Purpose: The server, `FAMServer.cpp`: its side of the `.adj` file (how many edges it holds and the
  words that end up in the memory region the clients read) and the functions it runs for the
  connection manager's events. The copy in chunks of a mapped file is modelled by its result where
  the mappings succeed, which `Core.FileMapper` computes; allocations and registrations of memory
  succeed, and `mr` is what registering the edge array returns.
Trusted boundary: human-reviewed model of `FAMServer.cpp`
Main exports: getEdgeList, Message, FamServer, FamServer.handlers, FamServer.run
-/
import FamGraph.Core.VertexTable
import FamGraph.Core.AbstractServer

namespace FamGraph

/-- `get_edge_list`: the `uint32_t` array copied out of the `.adj` file, which can be mapped. -/
def getEdgeList (adj_file : List UInt8) : List Nat :=
  let edges_count := numElements 4 adj_file
  (List.range edges_count).map (LittleEndian.wordAt 4 adj_file)

/-- `message_id` -/
inductive MessageId where
  | invalid
  | mr
  | ready
  | done
deriving DecidableEq, Repr

/-- The address and key by which a client reads the edge array. -/
structure MemoryRegion where
  addr : Nat
  rkey : Nat
deriving DecidableEq, Repr

/-- `message` -/
structure Message where
  id : MessageId
  addr : Nat
  rkey : Nat
  total_edges : Nat
deriving DecidableEq, Repr

/-- `server_context`. `adj_file` is what `adj_filename` names, if that is a regular file; a buffer
    is `none` before it is allocated and after it is freed, and holds `none` until a message is
    written to it. -/
structure ServerContext where
  adj_file : Option (List UInt8)
  v : List (List Nat)
  tx_msg : Option (Option Message)
  rx_msg : Option (Option Message)

/-- The server's object and what it asks of its queue pairs. `context id` tells whether
    `id->context` points to `server_ctx`; on a new connection it is the listener's, which is
    null. -/
structure FamServer where
  server_ctx : ServerContext
  context : Nat → Bool
  received : List Nat
  sent : List (Nat × Option Message)

namespace FamServer

/-- `static_cast<struct server_context *>(id->context)`, about to be dereferenced. -/
def contextOf (id : Nat) : EStateM Stop FamServer ServerContext := do
  if (← get).context id then
    return (← get).server_ctx
  else
    throw .nullPointer

def setCtx (ctx : ServerContext) : EStateM Stop FamServer Unit :=
  modify fun s => { s with server_ctx := ctx }

/-- `post_receive` -/
def postReceive (id : Nat) : EStateM Stop FamServer Unit := do
  let ctx ← contextOf id
  match ctx.rx_msg with
  | some _ => modify fun s => { s with received := s.received ++ [id] }
  | none => throw .nullPointer

/-- `send_message` -/
def sendMessage (id : Nat) : EStateM Stop FamServer Unit := do
  let ctx ← contextOf id
  match ctx.tx_msg with
  | some msg => modify fun s => { s with sent := s.sent ++ [(id, msg)] }
  | none => throw .nullPointer

/-- `on_pre_conn` -/
def onPreConn (id : Nat) : EStateM Stop FamServer Unit := do
  modify fun s => { s with context := Function.update s.context id true }
  setCtx { (← contextOf id) with tx_msg := some none }
  setCtx { (← contextOf id) with rx_msg := some none }
  postReceive id

/-- `on_connection` -/
def onConnection (mr : MemoryRegion) (id : Nat) : EStateM Stop FamServer Unit := do
  let ctx ← contextOf id
  match ctx.adj_file with
  | none => throw (.runtimeError ".adj file not found")
  | some file =>
      let ptr := getEdgeList file
      let edges := numElements 4 file
      setCtx { ctx with v := ctx.v ++ [ptr] }
      match ctx.tx_msg with
      | none => throw .nullPointer
      | some _ =>
          let msg := { id := .mr, addr := mr.addr, rkey := mr.rkey, total_edges := edges }
          setCtx { (← contextOf id) with tx_msg := some (some msg) }
          sendMessage id

/-- `on_disconnect` -/
def onDisconnect (id : Nat) : EStateM Stop FamServer Unit := do
  let ctx ← contextOf id
  setCtx { ctx with tx_msg := none, rx_msg := none }

/-- The functions the server overrides. -/
def handlers (mr : MemoryRegion) : Handlers FamServer where
  call
    | .onPreConn => onPreConn
    | .onConnection => onConnection mr
    | .onDisconnect => onDisconnect

/-- The object when `run` enters the event loop. -/
def new (adj_file : Option (List UInt8)) : FamServer where
  server_ctx := { adj_file := adj_file, v := [], tx_msg := none, rx_msg := none }
  context := fun _ => false
  received := []
  sent := []

/-- `run`: `event_loop(ec, 0)`, which does not exit on a disconnect. -/
def run (verbs : Nat → Nat) (mr : MemoryRegion) (adj_file : Option (List UInt8))
    (events : List CmEvent) :
    EStateM.Result Stop (AbstractServer FamServer) Bool :=
  AbstractServer.eventLoop verbs (handlers mr) false events (.new (new adj_file))

end FamServer

end FamGraph
