import Torrentkino.P2p.BenRoundTrip
import Torrentkino.P2p.Reply

/-!
# Senders and receivers agree

Every message that `send_udp.c` puts together passes the checks of a receiver
and reaches the handler it is meant for, with the values that were put in.

The messages are given with the arguments that their senders pass: transaction
ids and tokens within their limits, and compact lists of one to eight entries.
The proof goes through the dictionary: it is within the limits of the validator
(`bounded_dict`), so the receiver decodes the same dictionary, and reading its
fields one after the other gives the arguments back.

**Result.** `krpc_delivered`.
-/

namespace Torrentkino

open Memory

/-! ## Looking up keys -/

section Search

variable {key key' : String} {val : Ben} {d : List (Bytes × Ben)}

@[simp] theorem benDictSearchStr_nil :
    benDictSearchStr (some (.dict [])) key = none := rfl

@[simp] theorem benDictSearchStr_entry_self :
    benDictSearchStr (some (.dict (entry key val :: d))) key = some val := by
  simp [benDictSearchStr, benDictSearchKey, entry]

theorem benDictSearchStr_entry_of_ne (h : cstr key' ≠ cstr key) :
    benDictSearchStr (some (.dict (entry key' val :: d))) key =
      benDictSearchStr (some (.dict d)) key := by
  simp [benDictSearchStr, benDictSearchKey, entry, h]

end Search

@[simp] theorem benHash_bytes (id : NodeId) : benHash (some (.str id.bytes)) = some id := by
  simp [benHash, benStrS, NodeId.ofBytes?_bytes]

section Dict

variable (q : String) (arg : List (Bytes × Ben)) (tid : Bytes)

@[simp] theorem search_queryDict_a :
    benDictSearchStr (some (queryDict q arg tid)) "a" = some (.dict arg) :=
  benDictSearchStr_entry_self

@[simp] theorem search_queryDict_q :
    benDictSearchStr (some (queryDict q arg tid)) "q" = some (.str (cstr q)) := by
  simp (disch := decide) [queryDict, benDictSearchStr_entry_of_ne]

@[simp] theorem search_queryDict_t :
    benDictSearchStr (some (queryDict q arg tid)) "t" = some (.str tid) := by
  simp (disch := decide) [queryDict, benDictSearchStr_entry_of_ne]

@[simp] theorem search_queryDict_y :
    benDictSearchStr (some (queryDict q arg tid)) "y" = some (.str (cstr "q")) := by
  simp (disch := decide) [queryDict, benDictSearchStr_entry_of_ne]

@[simp] theorem search_replyDict_r :
    benDictSearchStr (some (replyDict arg tid)) "r" = some (.dict arg) :=
  benDictSearchStr_entry_self

@[simp] theorem search_replyDict_t :
    benDictSearchStr (some (replyDict arg tid)) "t" = some (.str tid) := by
  simp (disch := decide) [replyDict, benDictSearchStr_entry_of_ne]

@[simp] theorem search_replyDict_y :
    benDictSearchStr (some (replyDict arg tid)) "y" = some (.str (cstr "r")) := by
  simp (disch := decide) [replyDict, benDictSearchStr_entry_of_ne]

end Dict

/-- The head of a query: the sender's id comes first in its arguments. -/
theorem requestHead_queryDict
    {me id : NodeId} (hme : id ≠ me)
    (q : String) (arg : List (Bytes × Ben)) {tid : Bytes}
    (htid : tid.length ≤ tidSizeMax) :
    requestHead me (queryDict q (entry "id" (.str id.bytes) :: arg) tid) =
      .ok ⟨cstr q, .dict (entry "id" (.str id.bytes) :: arg), id, tid⟩ := by
  simp [requestHead, benStrS, nodeMe, hme, Nat.not_lt.mpr htid]

/-- The head of a reply. -/
theorem replyHead_replyDict
    {me id : NodeId} (hme : id ≠ me)
    (arg : List (Bytes × Ben)) {tid : Bytes}
    (htid : tid.length = tidSize) :
    replyHead me (replyDict (entry "id" (.str id.bytes) :: arg) tid) =
      .ok ⟨.dict (entry "id" (.str id.bytes) :: arg), id, tid⟩ := by
  simp [replyHead, benStrS, nodeMe, hme, htid]

/-! ## Compact lists -/

section Compact

variable {v : Build}

/-- The entry of a node. -/
def triple (node : NodeId × Ip v) : Bytes :=
  node.1.bytes ++ ipSinToTuple node.2

theorem length_triple (node : NodeId × Ip v) :
    (triple node).length = v.ipSizeMetaTriple := by
  simp [triple, node.1.length_eq, length_ipSinToTuple, Build.ipSizeMetaTriple_eq]

theorem ipSizeMetaTriple_pos (v : Build) : 0 < v.ipSizeMetaTriple := by
  cases v <;> decide

theorem ipSizeMetaPair_pos (v : Build) : 0 < v.ipSizeMetaPair := by
  cases v <;> decide

/-- A node is read from where its entry was written. -/
theorem read_triple
    (mem : Mem) (p : Nat) (node : NodeId × Ip v)
    (h : Holds mem p (triple node)) :
    (NodeId.ofMem mem p, ipTupleToSin v mem (p + sha1Size)) = node := by
  obtain ⟨hid, hsin⟩ := (holds_append _ _ _).mp h
  have hcopy := copy_of_holds hid
  rw [node.1.length_eq] at hsin hcopy
  obtain ⟨id, sin⟩ := node
  cases id
  simp only [NodeId.ofMem, hcopy, ipTupleToSin_of_holds hsin]

/-- Decoding a compact node list. -/
theorem compactTriples_flatMap (nodes : List (NodeId × Ip v)) :
    compactTriples v (nodes.flatMap triple) = nodes :=
  map_strides_flatMap (ipSizeMetaTriple_pos v) length_triple read_triple nodes

/-- The list of `bckt_compact_list` decodes to the nodes it was made from. -/
theorem compactTriples_bcktCompactList
    (heap : Heap (UdpNode v)) (l : List Buck) (target : NodeId) :
    compactTriples v (bcktCompactList heap l target) =
      (bcktCompactNodes heap l target).map fun n => (n.id, n.cAddr) := by
  rw [bcktCompactList_eq]
  have hmap : (bcktCompactNodes heap l target).flatMap nodeTriple =
      ((bcktCompactNodes heap l target).map fun n => (n.id, n.cAddr)).flatMap triple := by
    rw [List.flatMap_map]
    rfl
  rw [hmap, compactTriples_flatMap]

/-- The values list has one string for each pair. -/
theorem valuesList_flatMap (pairs : List (Pair v)) :
    valuesList v (pairs.flatMap (·.bytes)) = pairs.map fun pair => .str pair.bytes := by
  have hread : ∀ (mem : Mem) (p : Nat) (pair : Pair v),
      Holds mem p pair.bytes → Pair.ofMem v mem p = pair := by
    intro mem p pair h
    have hcopy := copy_of_holds h
    rw [pair.length_eq] at hcopy
    cases pair
    simp only [Pair.ofMem, hcopy]
  have hpairs := map_strides_flatMap (ipSizeMetaPair_pos v) (fun pair => pair.length_eq)
    hread pairs
  calc valuesList v (pairs.flatMap (·.bytes))
      = ((strides (pairs.flatMap (·.bytes)).length v.ipSizeMetaPair).map
          (Pair.ofMem v (buffer (pairs.flatMap (·.bytes)) []))).map
            fun pair => .str pair.bytes := by
        rw [List.map_map]
        rfl
    _ = pairs.map fun pair => .str pair.bytes := by
        rw [hpairs]

theorem ofBytes?_pair (pair : Pair v) : Pair.ofBytes? v pair.bytes = some pair := by
  simp [Pair.ofBytes?, pair.length_eq]

/-- Reading the values list gives the pairs back. -/
theorem valuesPairs_valuesList {pairs : List (Pair v)} (hlen : pairs.length ≤ 8) :
    valuesPairs v (valuesList v (pairs.flatMap (·.bytes))) = some pairs := by
  rw [valuesList_flatMap, valuesPairs,
    List.take_of_length_le (by simpa using hlen), List.mapM_map]
  induction pairs with
  | nil =>
      rfl
  | cons pair pairs ih =>
      have hrest := ih (Nat.le_of_succ_le hlen)
      simp [benStrS, ofBytes?_pair] at hrest ⊢
      simp [hrest]

end Compact

/-! ## The messages and their arguments -/

/-- A string with `lo` to `hi` bytes. -/
structure Sized (lo hi : Nat) where
  bytes : Bytes
  le_length : lo ≤ bytes.length
  length_le : bytes.length ≤ hi

/-- A transaction id that this program creates. -/
abbrev OwnTid := Sized tidSize tidSize

/-- A transaction id that is echoed. -/
abbrev EchoedTid := Sized 0 tidSizeMax

/-- A token that a node has handed out. -/
abbrev HandedToken := Sized 1 tokenSizeMax

/-- The arguments of a compact node list. -/
structure NodeList (v : Build) where
  nodes : List (NodeId × Ip v)
  length_pos : 1 ≤ nodes.length
  length_le : nodes.length ≤ 8

/-- The compact list itself. -/
def NodeList.bytes {v : Build} (l : NodeList v) : Bytes :=
  l.nodes.flatMap triple

/-- The arguments of a compact list of values. -/
structure ValueList (v : Build) where
  pairs : List (Pair v)
  length_pos : 1 ≤ pairs.length
  length_le : pairs.length ≤ 8

/-- The compact list itself. -/
def ValueList.bytes {v : Build} (l : ValueList v) : Bytes :=
  l.pairs.flatMap (·.bytes)

/-- The queries. -/
inductive Query where
  | ping (tid : OwnTid)
  | findNode (target : NodeId) (tid : OwnTid)
  | getPeers (infoHash : NodeId) (tid : OwnTid)
  | announce (infoHash : NodeId) (port : Nat) (hport : 1 ≤ port ∧ port ≤ 65535)
      (token : HandedToken) (tid : OwnTid)

namespace Query

/-- The transaction id. -/
def tid : Query → OwnTid
  | ping tid => tid
  | findNode _ tid => tid
  | getPeers _ tid => tid
  | announce _ _ _ _ tid => tid

/-- The name of the query, and its arguments behind the node id. -/
def content : Query → String × List (Bytes × Ben)
  | ping _ => ("ping", [])
  | findNode target _ => ("find_node", [entry "target" (.str target.bytes)])
  | getPeers infoHash _ => ("get_peers", [entry "info_hash" (.str infoHash.bytes)])
  | announce infoHash port _ token _ =>
      ("announce_peer",
        [entry "info_hash" (.str infoHash.bytes), entry "port" (.int port),
          entry "token" (.str token.bytes)])

/-- The dictionary that the node `me` sends. -/
def dict (me : NodeId) : Query → Ben
  | ping tid => pingDict me tid.bytes
  | findNode target tid => findNodeRequestDict me target tid.bytes
  | getPeers infoHash tid => getPeersRequestDict me infoHash tid.bytes
  | announce infoHash port _ token tid =>
      announceRequestDict me infoHash port token.bytes tid.bytes

/-- The handler and its arguments. -/
def request : Query → Request
  | ping _ => .ping
  | findNode target _ => .findNode target
  | getPeers infoHash _ => .getPeers infoHash
  | announce infoHash port _ token _ => .announce infoHash token.bytes port

/-- The handler of an announce stops at a token the receiver does not know. -/
def admitted (accept : Bytes → Bool) : Query → Bool
  | announce _ _ _ token _ => accept token.bytes
  | _ => true

theorem dict_eq (me : NodeId) (q : Query) :
    q.dict me =
      queryDict q.content.1 (entry "id" (.str me.bytes) :: q.content.2) q.tid.bytes := by
  cases q <;> rfl

end Query

/-- What a reply is about. -/
inductive AnswerKind (v : Build) where
  | pong
  | findNode (nodes : NodeList v)
  | getPeersNodes (nodes : NodeList v) (token : HandedToken)
  | getPeersValues (values : ValueList v) (token : HandedToken)
  | announce

/-- The replies. -/
structure Answer (v : Build) where
  kind : AnswerKind v
  tid : EchoedTid

namespace Answer

variable {v : Build}

/-- The arguments behind the node id. -/
def content (a : Answer v) : List (Bytes × Ben) :=
  match a.kind with
  | .pong => []
  | .findNode nodes => [entry v.nodesKey (.str nodes.bytes)]
  | .getPeersNodes nodes token =>
      [entry v.nodesKey (.str nodes.bytes), entry "token" (.str token.bytes)]
  | .getPeersValues values token =>
      [entry "token" (.str token.bytes),
        entry "values" (.list (valuesList v values.bytes))]
  | .announce => []

/-- The dictionary that the node `me` sends. -/
def dict (me : NodeId) (a : Answer v) : Ben :=
  match a.kind with
  | .pong => pongDict me a.tid.bytes
  | .findNode nodes => findNodeReplyDict v me nodes.bytes a.tid.bytes
  | .getPeersNodes nodes token => getPeersNodesDict v me nodes.bytes token.bytes a.tid.bytes
  | .getPeersValues values token =>
      getPeersValuesDict v me values.bytes token.bytes a.tid.bytes
  | .announce => announceReplyDict me a.tid.bytes

/-- The handler and its arguments. -/
def reply (a : Answer v) : Reply :=
  match a.kind with
  | .pong => .pong
  | .findNode nodes => .findNode nodes.bytes
  | .getPeersNodes nodes token => .getPeersNodes token.bytes nodes.bytes
  | .getPeersValues values token =>
      .getPeersValues token.bytes (valuesList v values.bytes)
  | .announce => .announce

/-- The types of the transactions that such a reply belongs to. -/
def types (a : Answer v) : List TidType :=
  match a.kind with
  | .pong => [.ping, .pingMulticast]
  | .findNode _ => [.findNode]
  | .getPeersNodes _ _ => [.getPeers, .announceStart]
  | .getPeersValues _ _ => [.getPeers, .announceStart]
  | .announce => [.announceEngage]

theorem dict_eq (me : NodeId) (a : Answer v) :
    a.dict me = replyDict (entry "id" (.str me.bytes) :: a.content) a.tid.bytes := by
  obtain ⟨kind, tid⟩ := a
  cases kind <;> rfl

end Answer

/-! ## The limits of the validator -/

section Bounded

variable {v : Build}

theorem NodeList.length_bytes (l : NodeList v) :
    l.bytes.length = l.nodes.length * v.ipSizeMetaTriple :=
  length_flatMap_of_length_eq length_triple l.nodes

theorem NodeList.length_bytes_le (l : NodeList v) : l.bytes.length ≤ benStrMaxsize := by
  have hle := Nat.mul_le_mul_right v.ipSizeMetaTriple l.length_le
  rw [← l.length_bytes] at hle
  refine Nat.le_trans hle ?_
  cases v <;> decide

theorem boundedList_map_str
    {l : List Bytes} (h : ∀ b ∈ l, b.length ≤ benStrMaxsize) :
    Ben.BoundedList (l.map Ben.str) := by
  induction l with
  | nil =>
      trivial
  | cons b l ih =>
      exact ⟨h b List.mem_cons_self, ih fun c hc => h c (List.mem_cons_of_mem b hc)⟩

theorem ValueList.bounded (l : ValueList v) :
    Ben.BoundedList (valuesList v l.bytes) := by
  have hmap : valuesList v l.bytes = (l.pairs.map (·.bytes)).map Ben.str := by
    rw [ValueList.bytes, valuesList_flatMap, List.map_map]
    rfl
  rw [hmap]
  refine boundedList_map_str fun b hb => ?_
  obtain ⟨pair, -, rfl⟩ := List.mem_map.mp hb
  rw [pair.length_eq]
  cases v <;> decide

theorem NodeId.length_le (id : NodeId) : id.bytes.length ≤ benStrMaxsize := by
  rw [id.length_eq]
  decide

theorem Sized.length_le_of_le
    {lo hi : Nat} (s : Sized lo hi) (h : hi ≤ benStrMaxsize) :
    s.bytes.length ≤ benStrMaxsize :=
  Nat.le_trans s.length_le h

/-- The keys and the constant strings of the messages are short. -/
theorem length_cstr_le {key : String} (h : key.length ≤ benStrMaxsize) :
    (cstr key).length ≤ benStrMaxsize := by
  rwa [cstr, List.length_map, String.length_toList]

theorem boundedDict_entry
    {key : String} {val : Ben} {d : List (Bytes × Ben)}
    (hkey : key.length ≤ benStrMaxsize)
    (hval : val.Bounded)
    (hd : Ben.BoundedDict d) :
    Ben.BoundedDict (entry key val :: d) :=
  ⟨length_cstr_le hkey, hval, hd⟩

theorem bounded_queryDict
    {q : String} {arg : List (Bytes × Ben)} {tid : Bytes}
    (hq : q.length ≤ benStrMaxsize)
    (harg : Ben.BoundedDict arg)
    (htid : tid.length ≤ benStrMaxsize) :
    (queryDict q arg tid).Bounded := by
  have hy : (cstr "q").length ≤ benStrMaxsize := length_cstr_le (by decide)
  exact boundedDict_entry (by decide) harg
    (boundedDict_entry (by decide) (length_cstr_le hq)
      (boundedDict_entry (by decide) htid (boundedDict_entry (by decide) hy trivial)))

theorem bounded_replyDict
    {arg : List (Bytes × Ben)} {tid : Bytes}
    (harg : Ben.BoundedDict arg)
    (htid : tid.length ≤ benStrMaxsize) :
    (replyDict arg tid).Bounded := by
  have hy : (cstr "r").length ≤ benStrMaxsize := length_cstr_le (by decide)
  exact boundedDict_entry (by decide) harg
    (boundedDict_entry (by decide) htid (boundedDict_entry (by decide) hy trivial))

theorem Query.bounded_dict (me : NodeId) (q : Query) : (q.dict me).Bounded := by
  rw [Query.dict_eq]
  refine bounded_queryDict ?_ (boundedDict_entry (by decide) me.length_le ?_)
    (q.tid.length_le_of_le (by decide))
  · cases q <;> simp only [Query.content] <;> decide
  · cases q with
    | ping tid =>
        trivial
    | findNode target tid =>
        exact boundedDict_entry (by decide) target.length_le trivial
    | getPeers infoHash tid =>
        exact boundedDict_entry (by decide) infoHash.length_le trivial
    | announce infoHash port hport token tid =>
        have hint : (Ben.int port).Bounded := Nat.le_trans hport.2 (by decide)
        have htoken := token.length_le_of_le (by decide)
        exact boundedDict_entry (by decide) infoHash.length_le
          (boundedDict_entry (by decide) hint (boundedDict_entry (by decide) htoken trivial))

theorem Answer.bounded_dict (me : NodeId) (a : Answer v) : (a.dict me).Bounded := by
  have hkey : v.nodesKey.length ≤ benStrMaxsize := by
    cases v <;> decide
  rw [Answer.dict_eq]
  refine bounded_replyDict (boundedDict_entry (by decide) me.length_le ?_)
    (a.tid.length_le_of_le (by decide))
  obtain ⟨kind, tid⟩ := a
  cases kind with
  | pong =>
      trivial
  | findNode nodes =>
      exact boundedDict_entry hkey nodes.length_bytes_le trivial
  | getPeersNodes nodes token =>
      exact boundedDict_entry hkey nodes.length_bytes_le
        (boundedDict_entry (by decide) (token.length_le_of_le (by decide)) trivial)
  | getPeersValues values token =>
      exact boundedDict_entry (by decide) (token.length_le_of_le (by decide))
        (boundedDict_entry (by decide) values.bounded trivial)
  | announce =>
      trivial

end Bounded

/-! ## The receiver -/

section Receiver

variable {v : Build} {conf : Conf} {behind after : Bytes} {s : Main v} {sa : Ip v}

/-- A datagram with a query is handed to `p2p_request`. -/
theorem p2pDecode_queryDict
    {q : String} {arg : List (Bytes × Ben)} {tid : Bytes}
    (hbounded : (queryDict q arg tid).Bounded) :
    p2pDecode conf behind s
        ⟨buffer (benEncRec (queryDict q arg tid)) after,
          (benEncRec (queryDict q arg tid)).length⟩ sa =
      p2pRequest conf behind s (queryDict q arg tid) sa := by
  have hy : benStrS (benDictSearchStr (some (queryDict q arg tid)) "y") =
      some ['q'.toUInt8] := by
    rw [search_queryDict_y]
    rfl
  rw [p2pDecode, (benDec_benEnc hbounded after).2.2]
  rw [queryDict] at hy ⊢
  simp only [hy, if_true]

/-- A datagram with a reply is handed to `p2p_reply`. -/
theorem p2pDecode_replyDict
    {arg : List (Bytes × Ben)} {tid : Bytes}
    (hbounded : (replyDict arg tid).Bounded) :
    p2pDecode conf behind s
        ⟨buffer (benEncRec (replyDict arg tid)) after,
          (benEncRec (replyDict arg tid)).length⟩ sa =
      p2pReply conf s (replyDict arg tid) sa := by
  have hy : benStrS (benDictSearchStr (some (replyDict arg tid)) "y") =
      some ['r'.toUInt8] := by
    rw [search_replyDict_y]
    rfl
  rw [p2pDecode, (benDec_benEnc hbounded after).2.2]
  rw [replyDict] at hy ⊢
  have hne : 'r'.toUInt8 ≠ 'q'.toUInt8 := by decide
  simp only [hy, if_neg hne, if_true]

/-- What the handler of an announce reads. -/
theorem announceArgs_dict
    (accept : Bytes → Bool) (me infoHash : NodeId) {port : Nat}
    (hport : 1 ≤ port ∧ port ≤ 65535) (token : HandedToken) :
    announceArgs accept (.dict
        [entry "id" (.str me.bytes), entry "info_hash" (.str infoHash.bytes),
          entry "port" (.int port), entry "token" (.str token.bytes)]) =
      if accept token.bytes then .ok (.announce infoHash token.bytes port)
      else .error .token := by
  have hlen := Nat.not_lt.mpr token.length_le
  have hrange : ¬ ((port : Int) < 1 ∨ (port : Int) > 65535) := by omega
  simp (disch := decide) only [announceArgs, benDictSearchStr_entry_of_ne,
    benDictSearchStr_entry_self, benHash_bytes, benStrS, if_neg hlen, if_neg hrange]
  cases accept token.bytes <;> rfl

/-- The branch of `p2p_request` that a query takes, and what its handler
reads. -/
theorem Query.requestBody_eq (accept : Bytes → Bool) (me : NodeId) (q : Query) :
    requestBody accept (cstr q.content.1) (.dict (entry "id" (.str me.bytes) :: q.content.2)) =
      if q.admitted accept then .ok q.request else .error .token := by
  cases q with
  | ping tid =>
      simp only [Query.content, Query.admitted, requestBody, if_true]
      rfl
  | findNode target tid =>
      have hping : cstr "find_node" ≠ cstr "ping" := by decide
      simp (disch := decide) only [Query.content, Query.admitted, requestBody, if_neg hping,
        if_true, benDictSearchStr_entry_of_ne, benDictSearchStr_entry_self, benHash_bytes]
      rfl
  | getPeers infoHash tid =>
      have hping : cstr "get_peers" ≠ cstr "ping" := by decide
      have hfind : cstr "get_peers" ≠ cstr "find_node" := by decide
      simp (disch := decide) only [Query.content, Query.admitted, requestBody, if_neg hping,
        if_neg hfind, if_true, benDictSearchStr_entry_of_ne, benDictSearchStr_entry_self,
        benHash_bytes]
      rfl
  | announce infoHash port hport token tid =>
      have hping : cstr "announce_peer" ≠ cstr "ping" := by decide
      have hfind : cstr "announce_peer" ≠ cstr "find_node" := by decide
      have hget : cstr "announce_peer" ≠ cstr "get_peers" := by decide
      simp only [Query.content, requestBody, if_neg hping, if_neg hfind, if_neg hget, if_true]
      exact announceArgs_dict accept me infoHash hport token

theorem nodesArg_bytes (nodes : NodeList v) :
    nodesArg v (some (.str nodes.bytes)) = .ok nodes.bytes := by
  have hmod : nodes.bytes.length % v.ipSizeMetaTriple = 0 := by
    rw [nodes.length_bytes, Nat.mul_mod_left]
  simp [nodesArg, benStrS, hmod]

/-- The branch of `p2p_reply` that a reply takes, and what its handler reads. -/
theorem Answer.replyBody_eq
    (me : NodeId) (a : Answer v) {type : TidType} (htype : type ∈ a.types) :
    replyBody v type (.dict (entry "id" (.str me.bytes) :: a.content)) = .ok a.reply := by
  obtain ⟨kind, tid⟩ := a
  have hid : cstr "id" ≠ cstr v.nodesKey := by
    cases v <;> decide
  have htoken : cstr v.nodesKey ≠ cstr "token" := by
    cases v <;> decide
  have hvalues : cstr v.nodesKey ≠ cstr "values" := by
    cases v <;> decide
  cases kind with
  | pong =>
      simp only [Answer.types, List.mem_cons, List.not_mem_nil, or_false] at htype
      rcases htype with rfl | rfl <;> rfl
  | findNode nodes =>
      simp only [Answer.types, List.mem_singleton] at htype
      subst htype
      simp [replyBody, Answer.content, benDictSearchStr_entry_of_ne hid, nodesArg_bytes,
        Answer.reply, Except.map]
  | getPeersNodes nodes token =>
      have hbody : getPeersArgs v (.dict (entry "id" (.str me.bytes) ::
          [entry v.nodesKey (.str nodes.bytes), entry "token" (.str token.bytes)])) =
          .ok (.getPeersNodes token.bytes nodes.bytes) := by
        have hle := Nat.not_lt.mpr token.length_le
        have hpos := Nat.not_le.mpr token.le_length
        simp (disch := first | decide | assumption) only [getPeersArgs,
          benDictSearchStr_entry_of_ne, benDictSearchStr_entry_self, benDictSearchStr_nil,
          benStrS, if_neg hle, if_neg hpos, nodesArg_bytes]
        rfl
      simp only [Answer.types, List.mem_cons, List.not_mem_nil, or_false] at htype
      rcases htype with rfl | rfl <;> exact hbody
  | getPeersValues values token =>
      have hbody : getPeersArgs v (.dict (entry "id" (.str me.bytes) ::
          [entry "token" (.str token.bytes),
            entry "values" (.list (valuesList v values.bytes))])) =
          .ok (.getPeersValues token.bytes (valuesList v values.bytes)) := by
        have hle := Nat.not_lt.mpr token.length_le
        have hpos := Nat.not_le.mpr token.le_length
        simp (disch := decide) only [getPeersArgs,
          benDictSearchStr_entry_of_ne, benDictSearchStr_entry_self,
          benStrS, if_neg hle, if_neg hpos]
      simp only [Answer.types, List.mem_cons, List.not_mem_nil, or_false] at htype
      rcases htype with rfl | rfl <;> exact hbody
  | announce =>
      simp only [Answer.types, List.mem_singleton] at htype
      subst htype
      rfl

/-- A query reaches its handler. -/
theorem Query.p2pDecode_eq
    {me : NodeId} (hme : me ≠ conf.nodeId) (q : Query) :
    p2pDecode conf behind s
        ⟨buffer (benEncRec (q.dict me)) after, (benEncRec (q.dict me)).length⟩ sa =
      if q.admitted (tknAccepts s.token behind) then
        handleRequest conf (s.nbhdPut conf me sa) me q.tid.bytes sa q.request
      else .ok (s.nbhdPut conf me sa) := by
  have hbounded := q.bounded_dict me
  rw [Query.dict_eq] at hbounded ⊢
  have htid : q.tid.bytes.length ≤ tidSizeMax := Nat.le_trans q.tid.length_le (by decide)
  rw [p2pDecode_queryDict hbounded, p2pRequest, requestHead_queryDict hme _ _ htid]
  dsimp only
  rw [Query.requestBody_eq]
  have htoken : (s.nbhdPut conf me sa).token = s.token := rfl
  rw [htoken]
  cases q.admitted (tknAccepts s.token behind) <;> rfl

/-- The transaction `ti` of this type waits for replies with the id `t`. -/
structure Awaits (s : Main v) (t : Bytes) (ti : Ref) (type : TidType) : Prop where
  length_eq : t.length = tidSize
  item : tdbItem s.transaction t = some ti
  type_eq : tdbType s.transaction (some ti) = some type

/-- A reply reaches its handler. -/
theorem Answer.p2pDecode_eq
    {me : NodeId} (hme : me ≠ conf.nodeId) (a : Answer v) {ti : Ref} {type : TidType}
    (htype : type ∈ a.types) (hti : Awaits s a.tid.bytes ti type) :
    p2pDecode conf behind s
        ⟨buffer (benEncRec (a.dict me)) after, (benEncRec (a.dict me)).length⟩ sa =
      (handleReply conf (s.nbhdPut conf me sa) me ti a.tid.bytes sa a.reply).map
        (replyCleanup type ti) := by
  have hbounded := a.bounded_dict me
  rw [Answer.dict_eq] at hbounded ⊢
  rw [p2pDecode_replyDict hbounded]
  exact p2pReply_handled (replyHead_replyDict hme _ hti.length_eq) hti.item hti.type_eq
    (a.replyBody_eq me htype) sa

end Receiver

/-- A list that `bckt_compact_list` returns is one that the senders pass. -/
theorem exists_nodeList
    {v : Build} (heap : Heap (UdpNode v)) (l : List Buck) (target : NodeId)
    (hne : bcktCompactList heap l target ≠ []) :
    ∃ nodes : NodeList v, nodes.bytes = bcktCompactList heap l target ∧
      nodes.nodes = (bcktCompactNodes heap l target).map fun n => (n.id, n.cAddr) := by
  have hpos : bcktCompactNodes heap l target ≠ [] := by
    intro hnil
    rw [bcktCompactList_eq, hnil] at hne
    exact hne rfl
  refine ⟨⟨(bcktCompactNodes heap l target).map fun n => (n.id, n.cAddr), ?_, ?_⟩, ?_, rfl⟩
  · rw [List.length_map]
    exact List.length_pos_iff.mpr hpos
  · rw [List.length_map]
    exact bcktCompactNodes_length_le heap l target
  · rw [NodeList.bytes, List.flatMap_map, bcktCompactList_eq]
    rfl

/-! ## Delivery -/

/-- The daemon at the other end, when a datagram of the daemon comes in. -/
structure Receiver (v : Build) where
  conf : Conf
  state : Main v
  /-- The address that the datagram comes from. -/
  sa : Ip v
  /-- What lies behind the datagram, and behind the bytes of a token. -/
  after : Bytes
  behind : Bytes

namespace Receiver

variable {v : Build} (r : Receiver v)

/-- The receiver has put the sender into its routing table. -/
def known (me : NodeId) : Main v :=
  r.state.nbhdPut r.conf me r.sa

/-- One more datagram was sent, the validator of the receiver accepts it, and the receiver
handles it so. -/
def Gets (s s' : Main v) (dest : Ip v) (handled : Except Fault (Main v)) : Prop :=
  ∃ raw, s'.sent = s.sent ++ [.p2p ⟨dest, raw⟩] ∧
    benValidate ⟨buffer raw r.after, raw.length⟩ = some raw.length ∧
    p2pDecode r.conf r.behind r.state ⟨buffer raw r.after, raw.length⟩ r.sa = handled

/-- The queries of a daemon reach the handlers of the receiver. -/
structure GetsQueries (conf : Conf) (s : Main v) (dest : Ip v) : Prop where
  ping : ∀ tid : OwnTid, r.Gets s (sendPing conf s dest tid.bytes) dest
    (.ok (p2pPing r.conf (r.known conf.nodeId) tid.bytes r.sa))
  findNode : ∀ (target : NodeId) (tid : OwnTid),
    r.Gets s (sendFindNodeRequest conf s dest target tid.bytes) dest
      (.ok (p2pFindNodeGetRequest r.conf (r.known conf.nodeId) target tid.bytes r.sa))
  getPeers : ∀ (infoHash : NodeId) (tid : OwnTid),
    r.Gets s (sendGetPeersRequest conf s dest infoHash tid.bytes) dest
      (p2pGetPeersGetRequest r.conf (r.known conf.nodeId) infoHash tid.bytes r.sa)
  /-- The handler stops at a token that the receiver does not know. -/
  announce : ∀ (infoHash : NodeId) (token : HandedToken) (tid : OwnTid),
    1 ≤ conf.announcePort ∧ conf.announcePort ≤ 65535 →
    r.Gets s (sendAnnounceRequest conf s dest tid.bytes infoHash token.bytes) dest
      (.ok (if tknAccepts r.state.token r.behind token.bytes then
          p2pAnnounceGetRequest r.conf (r.known conf.nodeId) infoHash conf.nodeId
            conf.announcePort tid.bytes r.sa
        else r.known conf.nodeId))

/-- Its replies reach the handlers, if there is a transaction of a matching type. -/
structure GetsReplies (conf : Conf) (s : Main v) (dest : Ip v) : Prop where
  pong : ∀ (tid : EchoedTid) (ti : Ref) (type : TidType),
    type ∈ [.ping, .pingMulticast] → Awaits r.state tid.bytes ti type →
    r.Gets s (sendPong conf s dest tid.bytes) dest
      (.ok (replyCleanup type ti (p2pPong (r.known conf.nodeId) conf.nodeId r.sa)))
  findNode : ∀ (nodes : NodeList v) (tid : EchoedTid) (ti : Ref),
    Awaits r.state tid.bytes ti .findNode →
    r.Gets s (sendFindNodeReply conf s dest nodes.bytes tid.bytes) dest
      (.ok (replyCleanup .findNode ti
        (p2pFindNodeGetReply r.conf (r.known conf.nodeId) nodes.bytes)))
  getPeersNodes : ∀ (nodes : NodeList v) (token : HandedToken) (tid : EchoedTid) (ti : Ref)
    (type : TidType), type ∈ [.getPeers, .announceStart] → Awaits r.state tid.bytes ti type →
    tknRead s.token = some token.bytes →
    ∃ s', sendGetPeersNodes conf s dest nodes.bytes tid.bytes = .ok s' ∧
      r.Gets s s' dest (.ok (replyCleanup type ti (p2pGetPeersGetNodes r.conf
        (r.known conf.nodeId) conf.nodeId ti tid.bytes token.bytes nodes.bytes r.sa)))
  getPeersValues : ∀ (values : ValueList v) (token : HandedToken) (tid : EchoedTid) (ti : Ref)
    (type : TidType), type ∈ [.getPeers, .announceStart] → Awaits r.state tid.bytes ti type →
    tknRead s.token = some token.bytes →
    ∃ s', sendGetPeersValues conf s dest values.bytes tid.bytes = .ok s' ∧
      r.Gets s s' dest ((p2pGetPeersGetValues (r.known conf.nodeId) conf.nodeId ti token.bytes
        (valuesList v values.bytes) r.sa).map (replyCleanup type ti))
  announce : ∀ (tid : EchoedTid) (ti : Ref), Awaits r.state tid.bytes ti .announceEngage →
    r.Gets s (sendAnnounceReply conf s dest tid.bytes) dest
      (.ok (replyCleanup .announceEngage ti (r.known conf.nodeId)))

variable {r} {conf : Conf} {s : Main v}

/-- The call of a sender. -/
theorem gets_send
    (dest : Ip v) {dict : Ben} (hdict : dict.Bounded) {handled : Except Fault (Main v)}
    (hhandled : p2pDecode r.conf r.behind r.state
      ⟨buffer (benEncRec dict) r.after, (benEncRec dict).length⟩ r.sa = handled) :
    r.Gets s (s.send (sendUdp dest dict)) dest handled := by
  obtain ⟨henc, hvalid, -⟩ := benDec_benEnc hdict r.after
  refine ⟨benEncRec dict, ?_, hvalid, hhandled⟩
  rw [Main.send, sendUdp, henc]
  rfl

theorem gets_query
    (hme : conf.nodeId ≠ r.conf.nodeId) (s : Main v) (dest : Ip v) (q : Query) :
    r.Gets s (s.send (sendUdp dest (q.dict conf.nodeId))) dest
      (if q.admitted (tknAccepts r.state.token r.behind) then
        handleRequest r.conf (r.known conf.nodeId) conf.nodeId q.tid.bytes r.sa q.request
      else .ok (r.known conf.nodeId)) :=
  gets_send dest (q.bounded_dict conf.nodeId) (q.p2pDecode_eq hme)

theorem gets_answer
    (hme : conf.nodeId ≠ r.conf.nodeId) (s : Main v) (dest : Ip v) (a : Answer v) {ti : Ref}
    {type : TidType} (htype : type ∈ a.types) (hti : Awaits r.state a.tid.bytes ti type) :
    r.Gets s (s.send (sendUdp dest (a.dict conf.nodeId))) dest
      ((handleReply r.conf (r.known conf.nodeId) conf.nodeId ti a.tid.bytes r.sa a.reply).map
        (replyCleanup type ti)) :=
  gets_send dest (a.bounded_dict conf.nodeId) (a.p2pDecode_eq hme htype hti)

theorem getsQueries (hme : conf.nodeId ≠ r.conf.nodeId) (s : Main v) (dest : Ip v) :
    r.GetsQueries conf s dest where
  ping := fun tid => gets_query hme s dest (.ping tid)
  findNode := fun target tid => gets_query hme s dest (.findNode target tid)
  getPeers := fun infoHash tid => gets_query hme s dest (.getPeers infoHash tid)
  announce := by
    intro infoHash token tid hport
    rw [apply_ite Except.ok]
    exact gets_query hme s dest (.announce infoHash conf.announcePort hport token tid)

theorem getsReplies (hme : conf.nodeId ≠ r.conf.nodeId) (s : Main v) (dest : Ip v) :
    r.GetsReplies conf s dest where
  pong := fun tid _ _ htype hti => gets_answer hme s dest ⟨.pong, tid⟩ htype hti
  findNode := fun nodes tid _ hti =>
    gets_answer hme s dest ⟨.findNode nodes, tid⟩ (List.mem_singleton_self _) hti
  getPeersNodes := by
    intro nodes token tid ti type htype hti htoken
    refine ⟨_, ?_, gets_answer hme s dest ⟨.getPeersNodes nodes token, tid⟩ htype hti⟩
    rw [sendGetPeersNodes, htoken]
    rfl
  getPeersValues := by
    intro values token tid ti type htype hti htoken
    refine ⟨_, ?_, gets_answer hme s dest ⟨.getPeersValues values token, tid⟩ htype hti⟩
    rw [sendGetPeersValues, htoken]
    rfl
  announce := fun tid _ hti =>
    gets_answer hme s dest ⟨.announce, tid⟩ (List.mem_singleton_self _) hti

end Receiver

/-- What the senders of a daemon send passes the validator of a receiver with another node
id and reaches its handler there, with the sender's node id, the transaction id and all
arguments unchanged; a reply needs a transaction of a matching type under its id.  The
compact lists are read back entry by entry, and the node list that `bckt_compact_list`
makes stands for the first at most eight nodes of its bucket that are `node_ok`. -/
theorem krpc_delivered
    {v : Build} (conf : Conf) (r : Receiver v) (hme : conf.nodeId ≠ r.conf.nodeId)
    (s : Main v) (dest : Ip v) :
    r.GetsQueries conf s dest ∧ r.GetsReplies conf s dest ∧
    (∀ nodes : NodeList v, compactTriples v nodes.bytes = nodes.nodes) ∧
    (∀ values : ValueList v,
      valuesPairs v (valuesList v values.bytes) = some values.pairs) ∧
    ∀ (heap : Heap (UdpNode v)) (l : List Buck) (target : NodeId),
      compactTriples v (bcktCompactList heap l target) =
          (bcktCompactNodes heap l target).map (fun n => (n.id, n.cAddr)) ∧
        (bcktCompactList heap l target ≠ [] →
          ∃ nodes : NodeList v, nodes.bytes = bcktCompactList heap l target) := by
  refine ⟨Receiver.getsQueries hme s dest, Receiver.getsReplies hme s dest, ?_, ?_, ?_⟩
  · intro nodes
    exact compactTriples_flatMap nodes.nodes
  · intro values
    exact valuesPairs_valuesList values.length_le
  · intro heap l target
    refine ⟨compactTriples_bcktCompactList heap l target, fun hne => ?_⟩
    obtain ⟨nodes, hbytes, -⟩ := exists_nodeList heap l target hne
    exact ⟨nodes, hbytes⟩

/-- A configuration with a node id of twenty ones. -/
def onesConf : Conf where
  nodeId := ⟨List.replicate sha1Size 1, by simp⟩
  announcePort := 8080
  multicast := false
  realm := []
  boolRealm := false
  sha1Hash := fun _ => .zero

/-- A node that waits for a reply to `find_node`; the first bytes of the random
source have become its token. -/
def waitingMain : Main .ipv4 :=
  ((mainInit 0 [] ⟨fun _ => 0, UInt8.ofNat⟩ []).tdbPut .findNode).2

theorem awaits_waitingMain : Awaits waitingMain [8, 9, 10, 11] 0 .findNode where
  length_eq := rfl
  item := by decide +kernel
  type_eq := by decide +kernel

/-- It gets its datagrams from `10.0.0.2`. -/
def waitingReceiver : Receiver .ipv4 where
  conf := onesConf
  state := waitingMain
  sa := .ofQuad 10 0 0 2 (26, 225)
  after := [7]
  behind := [7]

/-- A list with two nodes. -/
def twoNodes : NodeList .ipv4 :=
  ⟨[(.all 3, .ofQuad 10 0 0 3 (26, 225)), (.all 4, .ofQuad 10 0 0 4 (26, 225))], by simp,
    by simp⟩

/-- The node with the identifier of twos replies with the list, which the handler of the
receiver gets. -/
theorem krpc_delivered_twoNodes :
    waitingReceiver.Gets (mainInit 0 [] ⟨fun _ => 0, UInt8.ofNat⟩ [])
        (sendFindNodeReply { onesConf with nodeId := .all 2 }
          (mainInit 0 [] ⟨fun _ => 0, UInt8.ofNat⟩ []) (.ofQuad 10 0 0 1 (26, 225))
          twoNodes.bytes [8, 9, 10, 11])
        (.ofQuad 10 0 0 1 (26, 225))
        (.ok (replyCleanup .findNode 0
          (p2pFindNodeGetReply onesConf (waitingReceiver.known (.all 2)) twoNodes.bytes))) ∧
      compactTriples .ipv4 twoNodes.bytes = twoNodes.nodes := by
  obtain ⟨-, hreplies, hnodes, -⟩ := krpc_delivered { onesConf with nodeId := .all 2 }
    waitingReceiver (by decide) (mainInit 0 [] ⟨fun _ => 0, UInt8.ofNat⟩ [])
    (.ofQuad 10 0 0 1 (26, 225))
  exact ⟨hreplies.findNode twoNodes ⟨[8, 9, 10, 11], by simp, by simp [tidSizeMax]⟩ 0
    awaits_waitingMain, hnodes twoNodes⟩

end Torrentkino
