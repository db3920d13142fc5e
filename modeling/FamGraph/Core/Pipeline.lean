/-
Module: FamGraph.Core.Pipeline
Layer: Core
Purpose: What a client has of a graph once `MSG_MR` is handled: the number of vertices and the table
  of offsets from its `.idx` file, the number of edges and their address from the message, and
  behind the address the words the server has loaded from the `.adj` file.
Trusted boundary: human-reviewed model of what `Generic_ctx` reads; the memory of the server stays
  as `get_edge_list` left it
Main exports: clientContext
-/
import FamGraph.Core.Packing
import FamGraph.Core.FamServer

namespace FamGraph

/-- `num_vertices`, `num_edges` and the vertex table of `Generic_ctx`, on the message the server
    sent and the edges it holds. -/
def clientContext (index_file : List UInt8) (rx_msg : Message) (v : List Nat) (lkey : Nat) :
    Except String ClientContext := do
  let num_vertices ← getNumVerts index_file
  let vtable ← getVertexTable num_vertices index_file
  return {
    num_vertices := num_vertices
    num_edges := rx_msg.total_edges
    edge_offset := fun v => vtable.getD v 0
    peer_addr := rx_msg.addr
    peer_rkey := rx_msg.rkey
    lkey := lkey
    words := fun i => v.getD i 0 }

end FamGraph
