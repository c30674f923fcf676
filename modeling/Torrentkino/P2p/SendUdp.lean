import Torrentkino.Lib.Strides
import Torrentkino.P2p.Ben
import Torrentkino.P2p.NodeUdp
import Torrentkino.P2p.Token

/-!
# `p2p/send_udp.c`

The nine messages of the protocol, in the build without encryption.  All
queries and all replies are put together in the same way around their
arguments.
-/

namespace Torrentkino

open Memory

/-- A datagram and where it is sent. -/
structure Datagram (v : Build) where
  addr : Ip v
  raw : Bytes
deriving DecidableEq, Repr

/-- `send_udp` of an encoded dictionary; `none` would be the access to the null
pointer that `ben_enc` returned. -/
def sendUdp {v : Build} (sa : Ip v) (dict : Ben) : Option (Datagram v) :=
  (benEnc dict).map fun raw => ⟨sa, raw⟩

/-- An entry of a dictionary. -/
def entry (key : String) (val : Ben) : Bytes × Ben :=
  (cstr key, val)

/-- The dictionary of a query. -/
def queryDict (q : String) (arg : List (Bytes × Ben)) (tid : Bytes) : Ben :=
  .dict [entry "a" (.dict arg), entry "q" (.str (cstr q)), entry "t" (.str tid),
    entry "y" (.str (cstr "q"))]

/-- The dictionary of a reply. -/
def replyDict (arg : List (Bytes × Ben)) (tid : Bytes) : Ben :=
  .dict [entry "r" (.dict arg), entry "t" (.str tid), entry "y" (.str (cstr "r"))]

/-- The key of a compact node list. -/
def Build.nodesKey : Build → String
  | ipv4 => "nodes"
  | ipv6 => "nodes6"

/-- The values list of a compact list of pairs. -/
def valuesList (v : Build) (list : Bytes) : List Ben :=
  (strides list.length v.ipSizeMetaPair).map fun i =>
    .str (copy (buffer list []) i v.ipSizeMetaPair)

/-! ## The dictionaries -/

/-- The dictionary of `send_ping`. -/
def pingDict (me : NodeId) (tid : Bytes) : Ben :=
  queryDict "ping" [entry "id" (.str me.bytes)] tid

/-- The dictionary of `send_pong`. -/
def pongDict (me : NodeId) (tid : Bytes) : Ben :=
  replyDict [entry "id" (.str me.bytes)] tid

/-- The dictionary of `send_find_node_request`. -/
def findNodeRequestDict (me target : NodeId) (tid : Bytes) : Ben :=
  queryDict "find_node"
    [entry "id" (.str me.bytes), entry "target" (.str target.bytes)] tid

/-- The dictionary of `send_find_node_reply`. -/
def findNodeReplyDict (v : Build) (me : NodeId) (list tid : Bytes) : Ben :=
  replyDict [entry "id" (.str me.bytes), entry v.nodesKey (.str list)] tid

/-- The dictionary of `send_get_peers_request`. -/
def getPeersRequestDict (me target : NodeId) (tid : Bytes) : Ben :=
  queryDict "get_peers"
    [entry "id" (.str me.bytes), entry "info_hash" (.str target.bytes)] tid

/-- The dictionary of `send_get_peers_nodes`. -/
def getPeersNodesDict (v : Build) (me : NodeId) (list token tid : Bytes) : Ben :=
  replyDict
    [entry "id" (.str me.bytes), entry v.nodesKey (.str list),
      entry "token" (.str token)] tid

/-- The dictionary of `send_get_peers_values`. -/
def getPeersValuesDict (v : Build) (me : NodeId) (list token tid : Bytes) : Ben :=
  replyDict
    [entry "id" (.str me.bytes), entry "token" (.str token),
      entry "values" (.list (valuesList v list))] tid

/-- The dictionary of `send_announce_request`. -/
def announceRequestDict (me target : NodeId) (port : Nat) (token tid : Bytes) : Ben :=
  queryDict "announce_peer"
    [entry "id" (.str me.bytes), entry "info_hash" (.str target.bytes),
      entry "port" (.int port), entry "token" (.str token)] tid

/-- The dictionary of `send_announce_reply`. -/
def announceReplyDict (me : NodeId) (tid : Bytes) : Ben :=
  replyDict [entry "id" (.str me.bytes)] tid

end Torrentkino
