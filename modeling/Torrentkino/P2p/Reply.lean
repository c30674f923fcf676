import Torrentkino.Lib.Simulation
import Torrentkino.P2p.BenParse
import Torrentkino.P2p.Request
import Torrentkino.P2p.Resolver

/-!
# `p2p/p2p.c`: replies, and the way in

`p2p_reply` and its handlers, again with the checks separated from the effects,
and `p2p_decode` and `p2p_parse`, which every datagram passes.
-/

namespace Torrentkino

open Memory Simulation

/-! ## Reading fields -/

/-- The common fields of a reply. -/
structure ReplyHead where
  r : Ben
  id : NodeId
  t : Bytes
deriving DecidableEq

/-- The checks of `p2p_reply` in front of `nbhd_put`. -/
def replyHead (me : NodeId) (packet : Ben) : Except P2pDrop ReplyHead :=
  match benDictSearchStr (some packet) "r" with
  | some (.dict d) =>
      match benHash (benDictSearchStr (some (.dict d)) "id") with
      | none => .error .nodeId
      | some id =>
      if nodeMe me id then .error .myself
      else
      match benStrS (benDictSearchStr (some packet) "t") with
      | none => .error .transactionId
      | some t =>
      if t.length ≠ tidSize then .error .transactionIdSize
      else .ok { r := .dict d, id := id, t := t }
  | _ => .error .argument

/-- A reply with the arguments its handler works on. -/
inductive Reply where
  | pong
  | findNode (nodes : Bytes)
  | getPeersNodes (token nodes : Bytes)
  | getPeersValues (token : Bytes) (values : List Ben)
  | announce
deriving DecidableEq, Repr

/-- The check of a compact node list. -/
def nodesArg (v : Build) (nodes : Option Ben) : Except P2pDrop Bytes :=
  match benStrS nodes with
  | none => .error .nodesMissing
  | some nodes =>
      if nodes.length % v.ipSizeMetaTriple ≠ 0 then .error .nodesBroken else .ok nodes

/-- The checks of `p2p_get_peers_get_reply`. -/
def getPeersArgs (v : Build) (arg : Ben) : Except P2pDrop Reply :=
  match benStrS (benDictSearchStr (some arg) "token") with
  | none => .error .token
  | some token =>
  if token.length > tokenSizeMax then .error .token
  else if token.length ≤ 0 then .error .token
  else
  match benDictSearchStr (some arg) "values" with
  | some (.list values) => .ok (.getPeersValues token values)
  | some _ => .error .values
  | none =>
  match benDictSearchStr (some arg) v.nodesKey with
  | none => .error .nothing
  | some nodes => (nodesArg v (some nodes)).map (.getPeersNodes token)

/-- The branches of `p2p_reply`, with the checks of the handlers. -/
def replyBody (v : Build) (type : TidType) (arg : Ben) : Except P2pDrop Reply :=
  match type with
  | .ping | .pingMulticast => .ok .pong
  | .findNode =>
      (nodesArg v (benDictSearchStr (some arg) v.nodesKey)).map .findNode
  | .getPeers | .announceStart => getPeersArgs v arg
  | .announceEngage => .ok .announce

/-! ## Compact lists -/

/-- The identifier at an offset. -/
def NodeId.ofMem (mem : Mem) (p : Nat) : NodeId :=
  ⟨copy mem p sha1Size, copy_length p sha1Size⟩

/-- The nodes of a compact node list. -/
def compactTriples (v : Build) (list : Bytes) : List (NodeId × Ip v) :=
  (strides list.length v.ipSizeMetaTriple).map fun i =>
    (NodeId.ofMem (buffer list []) i, ipTupleToSin v (buffer list []) (i + sha1Size))

/-- A string as a pair, if it has the size of one. -/
def Pair.ofBytes? (v : Build) (b : Bytes) : Option (Pair v) :=
  if h : b.length = v.ipSizeMetaPair then some ⟨b, h⟩ else none

/-- The loop of `p2p_get_peers_get_values`: the first eight values, unless one
of them is broken. -/
def valuesPairs (v : Build) (values : List Ben) : Option (List (Pair v)) :=
  (values.take 8).mapM fun val => (benStrS (some val)).bind (Pair.ofBytes? v)

/-! ## Handlers -/

section Reply

variable {v : Build}

/-- `r_success`, which sends the response through the DNS socket. -/
def Main.rSuccess (s : Main v) (lookup : Option Ref) (sa : Ip v) (msg : DnsMsg)
    (list : List (Pair v)) : Except Fault (Main v) :=
  match Torrentkino.rSuccess v s.names msg (list.flatMap (·.bytes)) with
  | .error _ => .error .answer
  | .ok none => .ok s
  | .ok (some w) => .ok { s with sent := s.sent ++ [.dns ⟨sa, w.out⟩ lookup] }

/-- `p2p_pong` -/
def p2pPong (s : Main v) (id : NodeId) (sa : Ip v) : Main v :=
  if hashExists s.nbhd.hash id.bytes then
    let time := timeAdd5MinApprox s.now s.random
    { s with nbhd := nbhdPonged s.nbhd id sa time.1, random := time.2 }
  else s

/-- One round of the loop in `p2p_find_node_get_reply`. -/
def findNodeStore (conf : Conf) (s : Main v) (node : NodeId × Ip v) : Main v :=
  if nodeMe conf.nodeId node.1 then s
  else if ipIsLinklocal node.2 then s
  else s.nbhdPut conf node.1 node.2

/-- `p2p_find_node_get_reply` -/
def p2pFindNodeGetReply (conf : Conf) (s : Main v) (nodes : Bytes) : Main v :=
  (compactTriples v nodes).foldl (findNodeStore conf) s

/-- Change a lookup in place. -/
def Main.modifyLookup (s : Main v) (l : Ref) (f : Lookup v → Lookup v) : Main v :=
  { s with transaction := s.transaction.modifyLookup l f }

/-- The lookup of a transaction with its reference. -/
def Main.lookupOf (s : Main v) (ti : Ref) : Option (Ref × Lookup v) :=
  (tdbLdb s.transaction ti).bind fun l =>
    (s.transaction.lookups.get l).map fun lookup => (l, lookup)

/-- One round of the loop in `p2p_get_peers_get_nodes`. -/
def getNodesQuery (conf : Conf) (l : Ref) (tid : Bytes) (s : Main v)
    (node : NodeId × Ip v) : Main v :=
  if nodeMe conf.nodeId node.1 then s
  else if ipIsLinklocal node.2 then s
  else
    let s := s.nbhdPut conf node.1 node.2
    match s.transaction.lookups.get l with
    | none => s
    | some lookup =>
        if (ldbFind lookup node.1).isSome then s
        else
          let p := ldbPut lookup node.1 node.2
          let s := s.modifyLookup l fun _ => p.2
          if p.1 ≥ 8 then s else sendGetPeersRequest conf s node.2 lookup.target tid

/-- `p2p_get_peers_get_nodes` -/
def p2pGetPeersGetNodes (conf : Conf) (s : Main v) (id : NodeId) (ti : Ref)
    (tid token nodes : Bytes) (sa : Ip v) : Main v :=
  match s.lookupOf ti with
  | none => s
  | some (l, _) =>
      let s := s.modifyLookup l fun lookup => ldbUpdate lookup id token sa
      (compactTriples v nodes).foldl (getNodesQuery conf l tid) s

/-- The end of `p2p_get_peers_get_values`, for a lookup that answers a query:
the pairs go to the cache, and the first time the response goes out.  What
`p_reply_msg` leaves in the message of the lookup is never looked at again. -/
def answerInitiator (s : Main v) (l : Ref) (lookup : Lookup v) (pairs : List (Pair v)) :
    Except Fault (Main v) :=
  let put := cachePut s.now s.cache lookup.target pairs s.random
  let s := { s with cache := put.1, random := put.2 }
  let s := s.modifyLookup l fun lookup => (ldbNumberOfDnsResponses lookup).2
  if (ldbNumberOfDnsResponses lookup).1 ≥ 1 then .ok s
  else
    let found := cacheCompactList s.now s.cache lookup.target
    let s := { s with cache := found.2 }
    if found.1 = [] then .ok s
    else s.rSuccess (some l) lookup.cAddr lookup.msg found.1

/-- `p2p_get_peers_get_values` -/
def p2pGetPeersGetValues (s : Main v) (id : NodeId) (ti : Ref) (token : Bytes)
    (values : List Ben) (sa : Ip v) : Except Fault (Main v) :=
  match s.lookupOf ti with
  | none => .ok s
  | some (l, lookup) =>
      let s := s.modifyLookup l fun lookup => ldbUpdate lookup id token sa
      match valuesPairs v values with
      | none => .ok s
      | some [] => .ok s
      | some pairs =>
          if !lookup.sendResponseToInitiator then .ok s
          else answerInitiator s l lookup pairs

/-- What is left of a lookup that answers a query: it is counted, the cache is
merged, and at most one response leaves, for the first values. -/
theorem answerInitiator_cases
    {s s' : Main v} {l : Ref} {lookup : Lookup v} {pairs : List (Pair v)}
    (h : answerInitiator s l lookup pairs = .ok s') :
    ∃ put, put = cachePut s.now s.cache lookup.target pairs s.random ∧
    ∃ cache sent,
      s' = { s.modifyLookup l (fun lookup => (ldbNumberOfDnsResponses lookup).2) with
        cache := cache
        random := put.2
        sent := s.sent ++ sent } ∧
      (sent = [] ∨
        lookup.numberOfDnsResponses = 0 ∧
        ∃ found w, (cacheCompactList s.now put.1 lookup.target).1 = found ∧ found ≠ [] ∧
          Torrentkino.rSuccess v s.names lookup.msg (found.flatMap (·.bytes)) = .ok (some w) ∧
          sent = [.dns ⟨lookup.cAddr, w.out⟩ (some l)]) := by
  refine ⟨_, rfl, ?_⟩
  simp only [answerInitiator] at h
  generalize cachePut s.now s.cache lookup.target pairs s.random = put at h ⊢
  split at h
  · cases h
    refine ⟨put.1, [], ?_, .inl rfl⟩
    rw [List.append_nil]
    rfl
  rename_i hfirst
  have hzero : lookup.numberOfDnsResponses = 0 := by
    simp only [ldbNumberOfDnsResponses] at hfirst
    omega
  split at h
  · cases h
    refine ⟨(cacheCompactList s.now put.1 lookup.target).2, [], ?_, .inl rfl⟩
    rw [List.append_nil]
    rfl
  rename_i hne
  rw [Main.rSuccess] at h
  split at h
  · cases h
  · cases h
    refine ⟨(cacheCompactList s.now put.1 lookup.target).2, [], ?_, .inl rfl⟩
    rw [List.append_nil]
    rfl
  · rename_i w hw
    cases h
    exact ⟨_, _, rfl, .inr ⟨hzero, _, w, rfl, hne, hw, rfl⟩⟩

/-- A values reply is noted, and goes on to the initiator if there is one and the
list has a pair. -/
theorem p2pGetPeersGetValues_cases
    {s s' : Main v} {id : NodeId} {ti : Ref} {token : Bytes} {values : List Ben} {sa : Ip v}
    (h : p2pGetPeersGetValues s id ti token values sa = .ok s') :
    s' = s ∨ ∃ l lookup, s.lookupOf ti = some (l, lookup) ∧
      (s' = s.modifyLookup l (fun lookup => ldbUpdate lookup id token sa) ∨
        ∃ pairs, valuesPairs v values = some pairs ∧ pairs ≠ [] ∧
          lookup.sendResponseToInitiator = true ∧
          answerInitiator (s.modifyLookup l fun lookup => ldbUpdate lookup id token sa)
            l lookup pairs = .ok s') := by
  rw [p2pGetPeersGetValues] at h
  split at h
  · cases h
    exact .inl rfl
  rename_i l lookup hlookup
  refine .inr ⟨l, lookup, hlookup, ?_⟩
  dsimp only at h
  split at h
  · cases h
    exact .inl rfl
  · cases h
    exact .inl rfl
  rename_i pairs hne hpairs
  split at h
  · cases h
    exact .inl rfl
  · rename_i hsend
    exact .inr ⟨pairs, hpairs, hne, by simpa using hsend, h⟩

/-- The lookup of a transaction is on the heap. -/
theorem get_of_lookupOf
    {s : Main v} {ti l : Ref} {lookup : Lookup v} (h : s.lookupOf ti = some (l, lookup)) :
    s.transaction.lookups.get l = some lookup := by
  obtain ⟨l', -, hmap⟩ := Option.bind_eq_some_iff.mp h
  obtain ⟨lookup', hget, heq⟩ := Option.map_eq_some_iff.mp hmap
  cases heq
  exact hget

/-- The handler of a reply. -/
def handleReply (conf : Conf) (s : Main v) (id : NodeId) (ti : Ref) (tid : Bytes)
    (sa : Ip v) : Reply → Except Fault (Main v)
  | .pong => .ok (p2pPong s id sa)
  | .findNode nodes => .ok (p2pFindNodeGetReply conf s nodes)
  | .getPeersNodes token nodes => .ok (p2pGetPeersGetNodes conf s id ti tid token nodes sa)
  | .getPeersValues token values => p2pGetPeersGetValues s id ti token values sa
  | .announce => .ok s

/-- The end of `p2p_reply`: the transaction is done, unless more replies may
come. -/
def replyCleanup (type : TidType) (ti : Ref) (s : Main v) : Main v :=
  match type with
  | .ping | .findNode | .announceEngage =>
      { s with transaction := tdbDel s.transaction ti }
  | _ => s

/-- `p2p_reply` -/
def p2pReply (conf : Conf) (s : Main v) (packet : Ben) (sa : Ip v) :
    Except Fault (Main v) :=
  match replyHead conf.nodeId packet with
  | .error _ => .ok s
  | .ok head =>
      let s := s.nbhdPut conf head.id sa
      match tdbItem s.transaction head.t with
      | none => .ok s
      | some ti =>
      match tdbType s.transaction (some ti) with
      | none => .ok s
      | some type =>
          let handled : Except Fault (Main v) := match replyBody v type head.r with
            | .error _ => .ok s
            | .ok reply => handleReply conf s head.id ti head.t sa reply
          handled.map (replyCleanup type ti)

/-- `p2p_decode`; an error message changes nothing. -/
def p2pDecode (conf : Conf) (behind : Bytes) (s : Main v) (bencode : Raw) (sa : Ip v) :
    Except Fault (Main v) :=
  match benDec bencode with
  | .error _ => .error .decode
  | .ok (some (.dict d), _) =>
      match benStrS (benDictSearchStr (some (.dict d)) "y") with
      | some [y] =>
          if y = 'q'.toUInt8 then p2pRequest conf behind s (.dict d) sa
          else if y = 'r'.toUInt8 then p2pReply conf s (.dict d) sa
          else .ok s
      | _ => .ok s
  | .ok _ => .ok s

/-- `p2p_parse`, at the clock reading `now`. -/
def p2pParse (conf : Conf) (behind : Bytes) (now : Int) (s : Main v) (bencode : Raw)
    (sa : Ip v) : Except Fault (Main v) :=
  let s := { s with p2p := { s.p2p with timeNow := now } }
  if bencode.size < 1 then .ok s
  else if ipIsLinklocal sa then .ok s
  else
    match benValidate bencode with
    | none => .ok s
    | some _ => p2pDecode conf behind s bencode sa

/-! ## What can happen to a datagram -/

/-- The message in a datagram with its type, as far as `p2p_decode` gets. -/
def messageOf (bencode : Raw) : Option (UInt8 × Ben) :=
  match benDec bencode with
  | .ok (some (.dict d), _) =>
      match benStrS (benDictSearchStr (some (.dict d)) "y") with
      | some [y] => some (y, .dict d)
      | _ => none
  | _ => none

/-- A reply is dropped, or it is from a new node and to no transaction, or it
reaches its transaction, which may be done with it. -/
theorem p2pReply_cases
    {conf : Conf} {s s' : Main v} {packet : Ben} {sa : Ip v}
    (h : p2pReply conf s packet sa = .ok s') :
    s' = s ∧ (∃ d, replyHead conf.nodeId packet = .error d) ∨
      ∃ head, replyHead conf.nodeId packet = .ok head ∧
      (s' = s.nbhdPut conf head.id sa ∧
          tdbType s.transaction (tdbItem s.transaction head.t) = none ∨
        ∃ ti type s₁, tdbItem s.transaction head.t = some ti ∧
          tdbType s.transaction (some ti) = some type ∧
          (s₁ = s.nbhdPut conf head.id sa ∨
            ∃ reply, replyBody v type head.r = .ok reply ∧
              handleReply conf (s.nbhdPut conf head.id sa) head.id ti head.t sa reply = .ok s₁) ∧
          s' = replyCleanup type ti s₁) := by
  rw [p2pReply] at h
  split at h
  · rename_i d hdrop
    cases h
    exact .inl ⟨rfl, d, hdrop⟩
  rename_i head hhead
  refine .inr ⟨head, hhead, ?_⟩
  dsimp only at h
  split at h
  · rename_i hti
    cases h
    have hitem : tdbItem s.transaction head.t = none := hti
    exact .inl ⟨rfl, by rw [hitem]; rfl⟩
  rename_i ti hti
  have hitem : tdbItem s.transaction head.t = some ti := hti
  split at h
  · rename_i htype
    cases h
    exact .inl ⟨rfl, by rw [hitem]; exact htype⟩
  rename_i type htype
  split at h
  · cases h
    exact .inr ⟨ti, type, _, hti, htype, .inl rfl, rfl⟩
  · rename_i reply hreply
    obtain ⟨s₁, hrun, rfl⟩ := map_eq_ok h
    exact .inr ⟨ti, type, s₁, hti, htype, .inr ⟨reply, hreply, hrun⟩, rfl⟩

/-- A reply that reaches its transaction and can be read. -/
theorem p2pReply_handled
    {conf : Conf} {s : Main v} {packet : Ben} {head : ReplyHead} {ti : Ref} {type : TidType}
    {reply : Reply} (hhead : replyHead conf.nodeId packet = .ok head)
    (hti : tdbItem s.transaction head.t = some ti)
    (htype : tdbType s.transaction (some ti) = some type)
    (hreply : replyBody v type head.r = .ok reply) (sa : Ip v) :
    p2pReply conf s packet sa =
      (handleReply conf (s.nbhdPut conf head.id sa) head.id ti head.t sa reply).map
        (replyCleanup type ti) := by
  have htransaction : (s.nbhdPut conf head.id sa).transaction = s.transaction := rfl
  simp only [p2pReply, hhead, htransaction, hti, htype, hreply]

/-- A datagram is dropped, or it is a query or a reply from an address that is
not link-local. -/
theorem p2pParse_cases
    {conf : Conf} {behind : Bytes} {now : Int} {s s' : Main v} {bencode : Raw} {sa : Ip v}
    (h : p2pParse conf behind now s bencode sa = .ok s') :
    s' = { s with p2p := { s.p2p with timeNow := now } } ∨
      ipIsLinklocal sa = false ∧ (benValidate bencode).isSome ∧ ∃ packet,
        (messageOf bencode = some ('q'.toUInt8, packet) ∧
            p2pRequest conf behind { s with p2p := { s.p2p with timeNow := now } } packet sa =
              .ok s' ∨
          messageOf bencode = some ('r'.toUInt8, packet) ∧
            p2pReply conf { s with p2p := { s.p2p with timeNow := now } } packet sa =
              .ok s') := by
  simp only [p2pParse] at h
  split at h
  · cases h
    exact .inl rfl
  split at h
  · cases h
    exact .inl rfl
  rename_i hlocal
  split at h
  · cases h
    exact .inl rfl
  rename_i hvalid
  have hvalid : (benValidate bencode).isSome := by
    rw [hvalid]
    rfl
  rw [p2pDecode] at h
  split at h
  · cases h
  · rename_i d rest hdec
    split at h
    · rename_i y hy
      have hmessage : messageOf bencode = some (y, .dict d) := by
        rw [messageOf, hdec]
        dsimp only
        rw [hy]
      split at h
      · rename_i hq
        subst hq
        exact .inr ⟨Bool.eq_false_iff.mpr hlocal, hvalid, _, .inl ⟨hmessage, h⟩⟩
      split at h
      · rename_i hr
        subst hr
        exact .inr ⟨Bool.eq_false_iff.mpr hlocal, hvalid, _, .inr ⟨hmessage, h⟩⟩
      · cases h
        exact .inl rfl
    · cases h
      exact .inl rfl
  · cases h
    exact .inl rfl

/-- Only replies to pings are pongs. -/
theorem replyBody_eq_pong {type : TidType} {arg : Ben} (h : replyBody v type arg = .ok .pong) :
    type = .ping ∨ type = .pingMulticast := by
  cases type with
  | ping =>
      exact .inl rfl
  | pingMulticast =>
      exact .inr rfl
  | findNode =>
      obtain ⟨nodes, -, heq⟩ := map_eq_ok h
      cases heq
  | getPeers | announceStart =>
      rw [replyBody, getPeersArgs] at h
      repeat' split at h
      any_goals cases h
      obtain ⟨nodes, -, heq⟩ := map_eq_ok h
      cases heq
  | announceEngage =>
      cases h

theorem benValidate_nonempty {raw : Raw} {q : Nat} (h : benValidate raw = some q) :
    0 < raw.size := by
  by_contra hsize
  rw [benValidate, Nat.eq_zero_of_not_pos hsize] at h
  cases h

/-- A valid reply gets to `p2p_reply`. -/
theorem p2pParse_of_reply
    {bencode : Raw} {packet : Ben} {sa : Ip v} (hvalid : (benValidate bencode).isSome)
    (hmessage : messageOf bencode = some ('r'.toUInt8, packet)) (hlocal : ipIsLinklocal sa = false)
    (conf : Conf) (behind : Bytes) (now : Int) (s : Main v) :
    p2pParse conf behind now s bencode sa =
      p2pReply conf { s with p2p := { s.p2p with timeNow := now } } packet sa := by
  obtain ⟨q, hvalid⟩ := Option.isSome_iff_exists.mp hvalid
  have hsize := benValidate_nonempty hvalid
  simp only [p2pParse, p2pDecode]
  rw [if_neg (by omega), hlocal, if_neg Bool.false_ne_true, hvalid]
  dsimp only
  rw [messageOf] at hmessage
  split at hmessage
  · rename_i d rest hdec
    split at hmessage
    · rename_i y hy
      cases hmessage
      rw [hdec]
      dsimp only
      rw [hy]
      dsimp only
      rw [if_neg (by decide), if_pos rfl]
    · cases hmessage
  · cases hmessage

end Reply
end Torrentkino
