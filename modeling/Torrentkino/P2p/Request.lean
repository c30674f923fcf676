import Torrentkino.P2p.Main

/-!
# `p2p/p2p.c`: queries

`p2p_request` and its handlers.  What a handler reads from the argument
dictionary is separated from what it then does: `requestHead` and `requestBody`
are the checks of `p2p_request` and of the handler it calls, in their order,
and the handlers take what the checks have found.  The node is remembered
between the two.
-/

namespace Torrentkino

open Memory

/-- Why a query or a reply is dropped.  The constructors follow the texts of the
log. -/
inductive P2pDrop where
  /-- `Query type missing or broken:` -/
  | queryType
  /-- `Argument missing or broken:` -/
  | argument
  /-- `Node ID missing or broken:` -/
  | nodeId
  /-- `WARNING: Received a packet from myself...` -/
  | myself
  /-- `Transaction ID missing or broken:` or `Missing transaction ID from` -/
  | transactionId
  /-- `Transaction ID too big:` or `Broken transaction ID from` -/
  | transactionIdSize
  /-- `Drop RPC VOTE message from` -/
  | vote
  /-- `Drop invalid query type from` -/
  | invalidQueryType
  /-- `Missing or broken target` -/
  | target
  /-- `Missing or broken info_hash` -/
  | infoHash
  /-- `Missing or broken token from`, `Token key too big from` or
  `Invalid token from` -/
  | token
  /-- `Missing or broken port from` -/
  | port
  /-- `Invalid port number from` -/
  | invalidPort
  /-- `nodes key missing` -/
  | nodesMissing
  /-- `nodes key broken` -/
  | nodesBroken
  /-- `values key missing or broken` -/
  | values
  /-- A reply to `get_peers` with neither values nor nodes. -/
  | nothing
deriving DecidableEq, Repr

/-! ## Reading fields -/

/-- `ben_str_s` of a node that `ben_is_str` accepts. -/
def benStrS : Option Ben → Option Bytes
  | some (.str s) => some s
  | _ => none

/-- The identifier in a node that `p2p_is_hash` accepts. -/
def benHash (node : Option Ben) : Option NodeId :=
  (benStrS node).bind NodeId.ofBytes?

/-- The common fields of a query. -/
structure RequestHead where
  q : Bytes
  a : Ben
  id : NodeId
  t : Bytes
deriving DecidableEq

/-- The checks of `p2p_request` in front of `nbhd_put`. -/
def requestHead (me : NodeId) (packet : Ben) : Except P2pDrop RequestHead :=
  match benStrS (benDictSearchStr (some packet) "q") with
  | none => .error .queryType
  | some q =>
  match benDictSearchStr (some packet) "a" with
  | some (.dict d) =>
      match benHash (benDictSearchStr (some (.dict d)) "id") with
      | none => .error .nodeId
      | some id =>
      if nodeMe me id then .error .myself
      else
      match benStrS (benDictSearchStr (some packet) "t") with
      | none => .error .transactionId
      | some t =>
      if t.length > tidSizeMax then .error .transactionIdSize
      else .ok { q := q, a := .dict d, id := id, t := t }
  | _ => .error .argument

/-- What is known of a query that passes: it is not the node's own, and it has its transaction
id. -/
theorem requestHead_eq_ok
    {me : NodeId} {packet : Ben} {head : RequestHead} (h : requestHead me packet = .ok head) :
    nodeMe me head.id = false ∧
      benStrS (benDictSearchStr (some packet) "t") = some head.t ∧
      head.t.length ≤ tidSizeMax := by
  rw [requestHead] at h
  split at h
  · cases h
  split at h
  · split at h
    · cases h
    split at h
    · cases h
    rename_i hme
    split at h
    · cases h
    rename_i t ht
    split at h
    · cases h
    rename_i hlen
    cases h
    exact ⟨Bool.eq_false_iff.mpr hme, ht, Nat.not_lt.mp hlen⟩
  · cases h

/-- A query with the arguments its handler works on. -/
inductive Request where
  | ping
  | findNode (target : NodeId)
  | getPeers (infoHash : NodeId)
  | announce (infoHash : NodeId) (token : Bytes) (port : Nat)
deriving DecidableEq, Repr

/-- The checks of `p2p_announce_get_request`; `accept` is `tkn_validate` on the
token. -/
def announceArgs (accept : Bytes → Bool) (arg : Ben) : Except P2pDrop Request :=
  match benHash (benDictSearchStr (some arg) "info_hash") with
  | none => .error .infoHash
  | some infoHash =>
  match benStrS (benDictSearchStr (some arg) "token") with
  | none => .error .token
  | some token =>
  if token.length > tokenSizeMax then .error .token
  else if !accept token then .error .token
  else
  match benDictSearchStr (some arg) "port" with
  | some (.int port) =>
      if port < 1 ∨ port > 65535 then .error .invalidPort
      else .ok (.announce infoHash token port.toNat)
  | _ => .error .port

/-- The branches of `p2p_request`, with the checks of the handlers. -/
def requestBody (accept : Bytes → Bool) (q : Bytes) (arg : Ben) :
    Except P2pDrop Request :=
  if q = cstr "ping" then .ok .ping
  else if q = cstr "find_node" then
    match benHash (benDictSearchStr (some arg) "target") with
    | none => .error .target
    | some target => .ok (.findNode target)
  else if q = cstr "get_peers" then
    match benHash (benDictSearchStr (some arg) "info_hash") with
    | none => .error .infoHash
    | some infoHash => .ok (.getPeers infoHash)
  else if q = cstr "announce_peer" then announceArgs accept arg
  else if q = cstr "vote" then .error .vote
  else .error .invalidQueryType

/-- What `p2p_announce_get_request` has checked before it calls `val_put`. -/
theorem announceArgs_eq_ok_iff (accept : Bytes → Bool) (arg : Ben) (r : Request) :
    announceArgs accept arg = .ok r ↔
      ∃ infoHash token port, benHash (benDictSearchStr (some arg) "info_hash") = some infoHash ∧
        benStrS (benDictSearchStr (some arg) "token") = some token ∧
        token.length ≤ tokenSizeMax ∧ accept token = true ∧
        benDictSearchStr (some arg) "port" = some (.int port) ∧ 1 ≤ port ∧ port ≤ 65535 ∧
        r = .announce infoHash token port.toNat := by
  rw [announceArgs]
  constructor
  · intro h
    split at h
    · cases h
    rename_i infoHash hhash
    split at h
    · cases h
    rename_i token htoken
    split at h
    · cases h
    rename_i hlen
    split at h
    · cases h
    rename_i haccept
    split at h
    · rename_i port hport
      split at h
      · cases h
      · rename_i hrange
        cases h
        exact ⟨infoHash, token, port, hhash, htoken, Nat.not_lt.mp hlen, by simpa using haccept,
          hport, by omega, by omega, rfl⟩
    · cases h
  · rintro ⟨infoHash, token, port, hhash, htoken, hlen, haccept, hport, hlow, hhigh, rfl⟩
    simp only [hhash, htoken, hport, haccept, Nat.not_lt.mpr hlen, if_false, Bool.not_true,
      Bool.false_eq_true]
    rw [if_neg (by omega)]

/-- An announce is a query of type `announce_peer` that passes these checks. -/
theorem requestBody_eq_announce_iff
    (accept : Bytes → Bool) (q : Bytes) (arg : Ben) (infoHash : NodeId) (token : Bytes)
    (port : Nat) :
    requestBody accept q arg = .ok (.announce infoHash token port) ↔
      q = cstr "announce_peer" ∧
        announceArgs accept arg = .ok (.announce infoHash token port) := by
  simp only [requestBody]
  constructor
  · intro h
    split at h
    · cases h
    split at h
    · split at h <;> cases h
    split at h
    · split at h <;> cases h
    split at h
    · rename_i hq
      exact ⟨hq, h⟩
    split at h <;> cases h
  · rintro ⟨rfl, h⟩
    rw [if_neg (by decide), if_neg (by decide), if_neg (by decide), if_pos rfl, h]

/-! ## Handlers -/

section Request

variable {v : Build}

/-- `tkn_validate` on a token string.  The string is followed by a zero byte
and by whatever else lies on the heap. -/
def tknAccepts (token : Token) (behind : Bytes) (id : Bytes) : Bool :=
  tknValidate token (buffer (id ++ [0]) behind)

/-- `p2p_ping` -/
def p2pPing (conf : Conf) (s : Main v) (tid : Bytes) (sa : Ip v) : Main v :=
  sendPong conf s sa tid

/-- `p2p_find_node_get_request` -/
def p2pFindNodeGetRequest (conf : Conf) (s : Main v) (target : NodeId) (tid : Bytes)
    (sa : Ip v) : Main v :=
  let list := bcktCompactList s.nbhd.heap s.nbhd.bucket target
  if list.length > 0 then sendFindNodeReply conf s sa list tid else s

/-- `p2p_get_peers_get_request` -/
def p2pGetPeersGetRequest (conf : Conf) (s : Main v) (infoHash : NodeId) (tid : Bytes)
    (sa : Ip v) : Except Fault (Main v) :=
  let values := valCompactList s.value infoHash
  if values.length > 0 then sendGetPeersValues conf s sa values tid
  else
    let nodes := bcktCompactList s.nbhd.heap s.nbhd.bucket infoHash
    if nodes.length > 0 then sendGetPeersNodes conf s sa nodes tid else .ok s

/-- `p2p_announce_get_request` -/
def p2pAnnounceGetRequest (conf : Conf) (s : Main v) (infoHash id : NodeId) (port : Nat)
    (tid : Bytes) (sa : Ip v) : Main v :=
  let u := valPut conf.nodeId s.now s.value infoHash id port sa
  sendAnnounceReply conf { s with value := u.1 } u.2 tid

/-- The handler of a query. -/
def handleRequest (conf : Conf) (s : Main v) (id : NodeId) (tid : Bytes) (sa : Ip v) :
    Request → Except Fault (Main v)
  | .ping => .ok (p2pPing conf s tid sa)
  | .findNode target => .ok (p2pFindNodeGetRequest conf s target tid sa)
  | .getPeers infoHash => p2pGetPeersGetRequest conf s infoHash tid sa
  | .announce infoHash _ port => .ok (p2pAnnounceGetRequest conf s infoHash id port tid sa)

/-- `p2p_request`.  `behind` is the memory behind the token string. -/
def p2pRequest (conf : Conf) (behind : Bytes) (s : Main v) (packet : Ben) (sa : Ip v) :
    Except Fault (Main v) :=
  match requestHead conf.nodeId packet with
  | .error _ => .ok s
  | .ok head =>
      let s := s.nbhdPut conf head.id sa
      match requestBody (tknAccepts s.token behind) head.q head.a with
      | .error _ => .ok s
      | .ok request => handleRequest conf s head.id head.t sa request

end Request
end Torrentkino
