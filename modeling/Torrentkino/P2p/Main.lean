import Torrentkino.P2p.Cache
import Torrentkino.P2p.Neighbourhood
import Torrentkino.P2p.SendUdp
import Torrentkino.P2p.Transaction
import Torrentkino.P2p.Value

/-!
# The state of the daemon

`struct obj_main` of `torrentkino.h` with everything it refers to, as far as
the packet handlers and the periodic tasks use it.

An event is a function on this state.  The datagrams of other daemons and the
periodic tasks are handled by one thread under the mutex.  DNS queries are handled
by another thread, and `r_parse` does not take the mutex: that a DNS query is handled
without an interruption is an assumption here.  `LookupThreads` does without it.

The datagrams that an event sends are collected in `sent`.  A DNS response that
a remote lookup sends is tagged with the lookup, so that the queries and the
responses of a run can be matched.
-/

namespace Torrentkino

open Memory

/-- A datagram that left through one of the two sockets. -/
inductive Sent (v : Build) where
  | p2p (d : Datagram v)
  | dns (d : Datagram v) (lookup : Option Ref)
deriving DecidableEq, Repr

/-- `CONF`, and the hash function `sha1_hash`.  `multicast` says that the
bootstrap node is the multicast address. -/
structure Conf where
  nodeId : NodeId
  announcePort : Nat
  multicast : Bool
  realm : Bytes
  boolRealm : Bool
  sha1Hash : Bytes → NodeId

/-- `ID`, without the name. -/
structure Identity where
  hostId : NodeId
  timeAnnounceHost : Int
deriving DecidableEq, Repr

/-- `P2P`: the clock reading, and when the periodic tasks are due. -/
structure P2p where
  timeNow : Int
  timeMaintainance : Int
  timeAnnounceHost : Int
  timeRestart : Int
  timeExpire : Int
  timeCache : Int
  timeSplit : Int
  timeToken : Int
  timePing : Int
  timeFind : Int
deriving DecidableEq, Repr

/-- `struct obj_main`, the content of the buffer of `r_parse`, what the random
sources will deliver, and what was sent. -/
structure Main (v : Build) where
  p2p : P2p
  identity : List Identity
  nbhd : Nbhd v
  value : Value v
  cache : Cache v
  token : Token
  transaction : Transaction v
  random : Random
  names : Bytes
  sent : List (Sent v)

/-- Why the process would end. -/
inductive Fault where
  /-- `ben_str() with NULL argument`, from `tkn_read` without a token. -/
  | noToken
  /-- The decoder left the datagram. -/
  | decode
  /-- An element of `answer` that does not exist was written. -/
  | answer
  /-- A loop did not end within the rounds that were allowed for. -/
  | rounds
  /-- A lookup was used that another thread has freed. -/
  | freed
deriving DecidableEq, Repr

section Main

variable {v : Build}

/-- The state after the initialisation in `main`, at the clock reading `now`.
`identity` is what the configuration has put there, and `names` what lies on the
stack where `r_parse` will keep its message. -/
def mainInit (now : Int) (identity : List Identity) (rnd : Random) (names : Bytes) :
    Main v :=
  let token := tknPut now tknInit rnd
  { p2p :=
      { timeNow := now
        timeMaintainance := 0
        timeAnnounceHost := 0
        timeRestart := 0
        timeExpire := 0
        timeCache := 0
        timeSplit := 0
        timeToken := 0
        timePing := 0
        timeFind := 0 }
    identity := identity
    nbhd := nbhdInit
    value := valInit
    cache := cacheInit
    token := token.1
    transaction := tdbInit
    random := token.2
    names := names
    sent := [] }

/-- The current clock reading. -/
def Main.now (s : Main v) : Int :=
  s.p2p.timeNow

/-- One more datagram has left. -/
def Main.send (s : Main v) (d : Option (Datagram v)) : Main v :=
  { s with sent := s.sent ++ (d.map Sent.p2p).toList }

/-- `nbhd_put` -/
def Main.nbhdPut (conf : Conf) (s : Main v) (id : NodeId) (sa : Ip v) : Main v :=
  { s with nbhd := Torrentkino.nbhdPut conf.nodeId s.nbhd id sa }

/-- `tdb_put`: the item of the new transaction with its id. -/
def Main.tdbPut (s : Main v) (type : TidType) : (Ref × Bytes) × Main v :=
  let t := Torrentkino.tdbPut s.now s.transaction type s.random
  (t.1, { s with transaction := t.2.1, random := t.2.2 })

/-! ## `p2p/send_udp.c` -/

/-- `send_ping` -/
def sendPing (conf : Conf) (s : Main v) (sa : Ip v) (tid : Bytes) : Main v :=
  s.send (sendUdp sa (pingDict conf.nodeId tid))

/-- `send_pong` -/
def sendPong (conf : Conf) (s : Main v) (sa : Ip v) (tid : Bytes) : Main v :=
  s.send (sendUdp sa (pongDict conf.nodeId tid))

/-- `send_find_node_request` -/
def sendFindNodeRequest (conf : Conf) (s : Main v) (sa : Ip v) (target : NodeId)
    (tid : Bytes) : Main v :=
  s.send (sendUdp sa (findNodeRequestDict conf.nodeId target tid))

/-- `send_find_node_reply` -/
def sendFindNodeReply (conf : Conf) (s : Main v) (sa : Ip v) (list tid : Bytes) : Main v :=
  s.send (sendUdp sa (findNodeReplyDict v conf.nodeId list tid))

/-- `send_get_peers_request` -/
def sendGetPeersRequest (conf : Conf) (s : Main v) (sa : Ip v) (target : NodeId)
    (tid : Bytes) : Main v :=
  s.send (sendUdp sa (getPeersRequestDict conf.nodeId target tid))

/-- `send_get_peers_nodes` -/
def sendGetPeersNodes (conf : Conf) (s : Main v) (sa : Ip v) (list tid : Bytes) :
    Except Fault (Main v) :=
  match tknRead s.token with
  | none => .error .noToken
  | some token => .ok (s.send (sendUdp sa (getPeersNodesDict v conf.nodeId list token tid)))

/-- `send_get_peers_values` -/
def sendGetPeersValues (conf : Conf) (s : Main v) (sa : Ip v) (list tid : Bytes) :
    Except Fault (Main v) :=
  match tknRead s.token with
  | none => .error .noToken
  | some token => .ok (s.send (sendUdp sa (getPeersValuesDict v conf.nodeId list token tid)))

/-- `send_announce_request` -/
def sendAnnounceRequest (conf : Conf) (s : Main v) (sa : Ip v) (tid : Bytes)
    (target : NodeId) (token : Bytes) : Main v :=
  s.send (sendUdp sa (announceRequestDict conf.nodeId target conf.announcePort token tid))

/-- `send_announce_reply` -/
def sendAnnounceReply (conf : Conf) (s : Main v) (sa : Ip v) (tid : Bytes) : Main v :=
  s.send (sendUdp sa (announceReplyDict conf.nodeId tid))

end Main
end Torrentkino
