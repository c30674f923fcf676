import Torrentkino.P2p.Act
import Torrentkino.P2p.LookupOrder

/-!
# The queries of a lookup

A lookup starts with the nodes of a bucket and goes on with the nodes that the
replies name, in whatever order and as often as they come.  It remembers the
nodes it has seen, and so asks none of them twice.

The datagrams do not say which node they are meant for.  To state this, a run
of acts is accompanied by a log of the queries: `actQueries` gives for each act
the nodes that its loop queries.

**Results.**
* `sendsQueries_loggedStep`: the logged queries are the ones that leave.
* `queriesInv_loggedStep`: no act makes a lookup send two queries for one identifier
  or one to the own identifier, and each lookup keeps what it has asked in its list
  and its hash.
-/

namespace Torrentkino

open Memory Simulation

variable {v : Build}

/-! ## The routing table -/

/-- The routing table is consistent and does not have the own identifier. -/
structure TableInv (me : NodeId) (s : Nbhd v) : Prop where
  inv : NbhdInv s
  notMe : hashGet s.hash me.bytes = none

section Table

variable {me : NodeId} {s s' : Nbhd v}

theorem tableInv_nbhdInit (me : NodeId) : TableInv me (nbhdInit : Nbhd v) where
  inv := nbhdInit_inv
  notMe := rfl

theorem hashGet_nbhdPut_me (me : NodeId) (s : Nbhd v) (id : NodeId) (sa : Ip v) :
    hashGet (nbhdPut me s id sa).hash me.bytes = hashGet s.hash me.bytes := by
  rw [nbhdPut]
  split
  · rfl
  rename_i hme
  split
  · rfl
  split
  · rfl
  dsimp only
  split
  · rfl
  · dsimp only
    rw [hashGet_hashPut, if_neg]
    intro heq
    exact hme (by simp [nodeMe, NodeId.bytes_inj heq, nodeInit])

theorem hashGet_nbhdExpire_of_none {key : Bytes} (h : hashGet s.hash key = none) :
    hashGet (nbhdExpire s).hash key = none := by
  have hdel : ∀ (s : Nbhd v) (r : Ref), hashGet s.hash key = none →
      hashGet (nbhdDel s r).hash key = none := by
    intro s r h
    rw [nbhdDel]
    split
    · exact h
    · dsimp only
      rw [hashGet_hashDel]
      split
      · rfl
      · exact h
  let kept (s : Nbhd v) : Prop := hashGet s.hash key = none
  refine List.foldlRecOn (motive := kept) _ _ h ?_
  intro s h i _
  rw [nbhdExpireBucket]
  split
  · exact h
  · refine List.foldlRecOn (motive := kept) _ _ h ?_
    intro s h r _
    split
    · exact hdel s r h
    · exact h

theorem TableInv.nbhdStep
    (h : TableInv me s) (op : NbhdOp v) (hop : nbhdStep me s op = .ok s') :
    TableInv me s' := by
  obtain ⟨s₁, hs₁, hinv⟩ := nbhdStep_inv me s op h.inv
  cases hs₁.symm.trans hop
  refine ⟨hinv, ?_⟩
  cases op with
  | put id sa =>
      cases hop
      rw [hashGet_nbhdPut_me]
      exact h.notMe
  | pinged id time =>
      cases hop
      rw [nbhdPinged]
      split <;> exact h.notMe
  | ponged id sa time =>
      cases hop
      rw [nbhdPonged]
      split <;> exact h.notMe
  | expire =>
      cases hop
      exact hashGet_nbhdExpire_of_none h.notMe
  | split target =>
      rw [Torrentkino.nbhdStep, nbhdSplit] at hop
      generalize bcktSplitLoop s.heap target 161 s.bucket = bucket at hop
      cases bucket with
      | none =>
          cases hop
      | some bucket =>
          cases hop
          exact h.notMe

theorem TableInv.modify
    (h : TableInv me s) (r : Ref) (f : UdpNode v → UdpNode v) (hf : ∀ n, (f n).id = n.id) :
    TableInv me { s with heap := s.heap.modify r f } :=
  ⟨h.inv.modify r f hf, h.notMe⟩

/-- The nodes that a lookup starts with are known. -/
theorem bcktCompactNodes_known {target : NodeId} {n : UdpNode v}
    (hn : n ∈ bcktCompactNodes s.heap s.bucket target) :
    ∃ r ∈ allNodes s.bucket, s.heap.get r = some n := by
  rw [bcktCompactNodes] at hn
  split at hn
  · cases hn
  · rename_i b hb
    obtain ⟨i, -, hi⟩ := Option.bind_eq_some_iff.mp hb
    obtain ⟨r, hr, hget⟩ := List.mem_filterMap.mp
      (List.mem_of_mem_filter (List.mem_of_mem_take hn))
    exact ⟨r, List.mem_flatMap.mpr ⟨b, List.mem_of_getElem? hi, hr⟩, hget⟩

theorem TableInv.ne_me
    (h : TableInv me s) {r : Ref} {n : UdpNode v} (hr : r ∈ allNodes s.bucket)
    (hget : s.heap.get r = some n) :
    n.id ≠ me := by
  rintro rfl
  have hfound := (h.inv.hash_iff n.id.bytes r).mpr ⟨hr, n, hget, rfl⟩
  rw [h.notMe] at hfound
  cases hfound

theorem TableInv.compactNodes_ne_me
    (h : TableInv me s) {target : NodeId} {n : UdpNode v}
    (hn : n ∈ bcktCompactNodes s.heap s.bucket target) :
    n.id ≠ me := by
  obtain ⟨r, hr, hget⟩ := bcktCompactNodes_known hn
  exact h.ne_me hr hget

/-- No two of them have the same identifier. -/
theorem NbhdInv.nodup_compactNodes (h : NbhdInv s) (target : NodeId) :
    ((bcktCompactNodes s.heap s.bucket target).map UdpNode.id).Nodup := by
  rw [bcktCompactNodes]
  split
  · exact List.nodup_nil
  · rename_i b hb
    obtain ⟨i, -, hi⟩ := Option.bind_eq_some_iff.mp hb
    have hmem : ∀ r ∈ b.nodes, r ∈ allNodes s.bucket := fun r hr =>
      List.mem_flatMap.mpr ⟨b, List.mem_of_getElem? hi, hr⟩
    have hnodup : b.nodes.Nodup :=
      (List.nodup_flatMap.mp h.buckets.distinct).1 b (List.mem_of_getElem? hi)
    have hids : ((b.nodes.filterMap s.heap.get).map UdpNode.id).Nodup := by
      rw [List.Nodup, List.pairwise_map, List.pairwise_filterMap]
      refine (List.Pairwise.and_mem.mp hnodup).imp ?_
      rintro r r' ⟨hr, hr', hne⟩ n hn n' hn' heq
      exact hne (h.buckets.ids_distinct r (hmem r hr) r' (hmem r' hr') n n' hn hn' heq)
    refine hids.sublist (List.Sublist.map _ ?_)
    exact (List.take_sublist _ _).trans List.filter_sublist

end Table

/-! ## The log -/

/-- A `get_peers` query to a node, on behalf of a lookup. -/
structure PeersQuery (v : Build) where
  lookup : Ref
  id : NodeId
  addr : Ip v
  target : NodeId
  tid : Bytes
deriving DecidableEq, Repr

/-- The datagram that leaves. -/
def PeersQuery.datagram (conf : Conf) (q : PeersQuery v) : List (Sent v) :=
  ((sendUdp q.addr (getPeersRequestDict conf.nodeId q.target q.tid)).map Sent.p2p).toList

/-- The query that one round of `p2p_get_peers_get_nodes` sends, if it comes that
far. -/
def nodeQueries (conf : Conf) (l : Ref) (tid : Bytes) (s : Main v) (node : NodeId × Ip v) :
    List (PeersQuery v) :=
  if nodeMe conf.nodeId node.1 then []
  else if ipIsLinklocal node.2 then []
  else
    match s.transaction.lookups.get l with
    | none => []
    | some lookup =>
        if (ldbFind lookup node.1).isSome then []
        else if (ldbPut lookup node.1 node.2).1 ≥ 8 then []
        else [⟨l, node.1, node.2, lookup.target, tid⟩]

/-- The queries of its loop. -/
def nodesQueries (conf : Conf) (l : Ref) (tid : Bytes) :
    Main v → List (NodeId × Ip v) → List (PeersQuery v)
  | _, [] => []
  | s, node :: nodes =>
      nodeQueries conf l tid s node ++
        nodesQueries conf l tid (getNodesQuery conf l tid s node) nodes

/-- The queries of an act.  The loop that starts a lookup queries every node. -/
def actQueries (conf : Conf) (s : Main v) : Act v → List (PeersQuery v)
  | .lookup target type _ _ =>
      (compactTriples v (bcktCompactList s.nbhd.heap s.nbhd.bucket target)).map fun node =>
        ⟨s.transaction.lookups.fresh, node.1, node.2, target, (s.tdbPut type).1.2⟩
  | .nodes id ti tid token nodes sa =>
      match s.lookupOf ti with
      | none => []
      | some (l, _) =>
          nodesQueries conf l tid (s.modifyLookup l fun lookup => ldbUpdate lookup id token sa)
            (compactTriples v nodes)
  | _ => []

/-- The state of the daemon with the queries that were sent so far. -/
structure Logged (v : Build) where
  main : Main v
  queries : List (PeersQuery v)

/-- One act. -/
def loggedStep (conf : Conf) (t : Logged v) (a : Act v) : Except Fault (Logged v) :=
  (actStep conf t.main a).map fun main =>
    { main := main, queries := t.queries ++ actQueries conf t.main a }

/-- The state after the start. -/
def loggedInit (now : Int) (identity : List Identity) (rnd : Random) (names : Bytes) :
    Logged v where
  main := mainInit now identity rnd names
  queries := []

/-! ## The logged queries are the ones that leave -/

/-- All datagrams of the loops are logged queries, and other acts send none. -/
def SendsQueries (conf : Conf) (t : Logged v) (a : Act v) (t' : Logged v) : Prop :=
  match a with
  | .lookup _ _ _ _ | .nodes _ _ _ _ _ _ =>
      ∃ new, t'.queries = t.queries ++ new ∧
        t'.main.sent = t.main.sent ++ new.flatMap (PeersQuery.datagram conf)
  | _ =>
      t'.queries = t.queries ∧
        ∀ d, Sent.p2p d ∈ t'.main.sent → Sent.p2p d ∈ t.main.sent ∨
          ∃ dict, ¬ AsksForPeers dict ∧ benEnc dict = some d.raw

section Sent

variable {conf : Conf} {l : Ref} {tid : Bytes}

theorem sent_getNodesQuery (s : Main v) (node : NodeId × Ip v) :
    (getNodesQuery conf l tid s node).sent =
      s.sent ++ (nodeQueries conf l tid s node).flatMap (PeersQuery.datagram conf) := by
  rw [getNodesQuery, nodeQueries]
  split
  · simp
  split
  · simp
  have htransaction : (s.nbhdPut conf node.1 node.2).transaction = s.transaction := rfl
  dsimp only
  rw [htransaction]
  cases s.transaction.lookups.get l with
  | none =>
      simp [Main.nbhdPut]
  | some lookup =>
      dsimp only
      split
      · simp [Main.nbhdPut]
      split
      · simp [Main.nbhdPut, Main.modifyLookup]
      · simp [Main.nbhdPut, Main.modifyLookup, sendGetPeersRequest, Main.send,
          PeersQuery.datagram]

theorem sent_getNodesQueries (nodes : List (NodeId × Ip v)) (s : Main v) :
    (nodes.foldl (getNodesQuery conf l tid) s).sent =
      s.sent ++ (nodesQueries conf l tid s nodes).flatMap (PeersQuery.datagram conf) := by
  induction nodes generalizing s with
  | nil =>
      simp [nodesQueries]
  | cons node nodes ih =>
      rw [List.foldl_cons, ih, sent_getNodesQuery, nodesQueries, List.flatMap_append,
        List.append_assoc]

theorem sent_lookupQueries (target : NodeId) (nodes : List (NodeId × Ip v)) (s : Main v) :
    (nodes.foldl (lookupQuery conf l tid target) s).sent =
      s.sent ++ (nodes.map fun node => (⟨l, node.1, node.2, target, tid⟩ :
        PeersQuery v)).flatMap (PeersQuery.datagram conf) := by
  induction nodes generalizing s with
  | nil =>
      simp
  | cons node nodes ih =>
      rw [List.foldl_cons, ih, List.map_cons, List.flatMap_cons, ← List.append_assoc]
      rfl

end Sent

theorem sendsQueries_loggedStep
    {conf : Conf} {t t' : Logged v} {a : Act v} (h : loggedStep conf t a = .ok t') :
    SendsQueries conf t a t' := by
  obtain ⟨main, hmain, rfl⟩ := map_eq_ok h
  cases a with
  | lookup target type owner query =>
      cases hmain
      exact ⟨_, rfl, sent_lookupQueries target _ _⟩
  | nodes id ti tid token nodes sa =>
      cases hmain
      refine ⟨_, rfl, ?_⟩
      change (p2pGetPeersGetNodes conf t.main id ti tid token nodes sa).sent = _
      rw [p2pGetPeersGetNodes, actQueries]
      cases t.main.lookupOf ti with
      | none =>
          simp
      | some found =>
          exact sent_getNodesQueries _ _
  | values id ti token values sa =>
      refine ⟨List.append_nil _, ?_⟩
      intro d hd
      rcases p2pGetPeersGetValues_cases hmain with rfl | ⟨l, lookup, -, rfl | ⟨pairs, -, -, -, h⟩⟩
      · exact .inl hd
      · exact .inl hd
      · obtain ⟨put, -, cache, sent, rfl, hsent⟩ := answerInitiator_cases h
        rcases hsent with rfl | ⟨-, found, w, -, -, -, rfl⟩
        · exact .inl (by simpa [Main.modifyLookup] using hd)
        · exact .inl (by simpa [Main.modifyLookup] using hd)
  | event =>
      cases hmain
      refine ⟨List.append_nil _, ?_⟩
      intro d hd
      cases hd
  | nbhd op =>
      rw [actStep] at hmain
      split at hmain
      · cases hmain
      · cases hmain
        exact ⟨List.append_nil _, fun d hd => .inl hd⟩
  | store m | names names | found r time | tdbPut type other | tdbDel ti =>
      cases hmain
      exact ⟨List.append_nil _, fun d hd => .inl hd⟩
  | send sa dict other =>
      cases hmain
      refine ⟨List.append_nil _, ?_⟩
      intro d hd
      rcases List.mem_append.mp hd with hd | hd
      · exact .inl hd
      · obtain ⟨d', hd', heq⟩ := Option.map_eq_some_iff.mp (Option.mem_toList.mp hd)
        cases heq
        obtain ⟨raw, hraw, rfl⟩ := Option.map_eq_some_iff.mp hd'
        exact .inr ⟨dict, other, hraw⟩
  | respond d =>
      cases hmain
      refine ⟨List.append_nil _, ?_⟩
      intro d' hd
      exact .inl (by simpa using hd)

/-! ## What a lookup remembers -/

/-- A node with the identifier is listed. -/
def Lists (lookup : Lookup v) (id : NodeId) : Prop :=
  ∃ n ∈ lookup.nodes.objects, n.id = id

/-- The lookup still lists what it has listed. -/
structure Extends (lookup lookup' : Lookup v) : Prop where
  inv : LookupInv lookup'
  lists : ∀ id, Lists lookup id → Lists lookup' id

section Lists

variable {lookup : Lookup v} {id : NodeId}

theorem LookupInv.length_objects (h : LookupInv lookup) :
    lookup.nodes.objects.length = lookup.nodes.list.length := by
  obtain ⟨ix, hix⟩ := h.indexed
  rw [← hix, ix.length_objects]

theorem LookupInv.not_lists_of_ldbFind (h : LookupInv lookup) (hfind : ldbFind lookup id = none) :
    ¬ Lists lookup id := by
  rintro ⟨n, hn, heq⟩
  exact (h.ldbFind_eq_none_iff id).mp hfind n hn heq

/-- Below the limit `ldb_put` lists one more node. -/
theorem LookupInv.objects_ldbPut_perm
    (h : LookupInv lookup) (hnew : ¬ Lists lookup id) (sa : Ip v)
    (hlimit : lookup.nodes.list.length < 32767) :
    (Torrentkino.ldbPut lookup id sa).2.nodes.objects.Perm
      (⟨id, sa, []⟩ :: lookup.nodes.objects) := by
  rw [h.objects_ldbPut sa (fun n hn heq => hnew ⟨n, hn, heq⟩) hlimit]
  refine List.perm_middle.trans ?_
  rw [List.take_append_drop]

theorem LookupInv.lists_ldbPut_iff
    (h : LookupInv lookup) (hnew : ¬ Lists lookup id) (sa : Ip v)
    (hlimit : lookup.nodes.list.length < 32767) (id' : NodeId) :
    Lists (Torrentkino.ldbPut lookup id sa).2 id' ↔ id = id' ∨ Lists lookup id' := by
  simp only [Lists, (h.objects_ldbPut_perm hnew sa hlimit).mem_iff, List.mem_cons,
    exists_eq_or_imp]

theorem extends_ldbPut (h : LookupInv lookup) (hnew : ¬ Lists lookup id) (sa : Ip v) :
    Extends lookup (ldbPut lookup id sa).2 where
  inv := h.ldbPut sa fun n hn heq => hnew ⟨n, hn, heq⟩
  lists := by
    intro id' hid'
    by_cases hlimit : lookup.nodes.list.length < 32767
    · exact (h.lists_ldbPut_iff hnew sa hlimit id').mpr (.inr hid')
    · rwa [ldbPut, if_pos (Nat.not_lt.mp hlimit)]

theorem extends_ldbUpdate (h : LookupInv lookup) (id : NodeId) (token : Bytes) (sa : Ip v) :
    Extends lookup (ldbUpdate lookup id token sa) where
  inv := h.ldbUpdate id token sa
  lists := by
    rintro id' ⟨n, hn, rfl⟩
    rw [Lists, h.objects_ldbUpdate]
    refine ⟨_, List.mem_map_of_mem hn, ?_⟩
    split <;> rfl

end Lists

/-! ## The invariant -/

/-- The routing table is fit to start lookups from, the lookups are in order, and
what a lookup has asked is listed and was asked once. -/
structure QueriesInv (conf : Conf) (s : Main v) (queries : List (PeersQuery v)) : Prop where
  table : TableInv conf.nodeId s.nbhd
  lookups : ∀ l lookup, s.transaction.lookups.get l = some lookup → LookupInv lookup
  old : ∀ q ∈ queries, q.lookup < s.transaction.lookups.fresh
  listed : ∀ q ∈ queries, ∀ lookup, s.transaction.lookups.get q.lookup = some lookup →
    Lists lookup q.id
  notMe : ∀ q ∈ queries, q.id ≠ conf.nodeId
  once : (queries.map fun q => (q.lookup, q.id)).Nodup

namespace QueriesInv

variable {conf : Conf} {s s' : Main v} {queries : List (PeersQuery v)}

/-- Without a query the invariant is about the table and the lookups only. -/
theorem frame
    (h : QueriesInv conf s queries)
    (htable : TableInv conf.nodeId s'.nbhd)
    (hfresh : s.transaction.lookups.fresh ≤ s'.transaction.lookups.fresh)
    (hlookups : ∀ l lookup', s'.transaction.lookups.get l = some lookup' →
      LookupInv lookup' ∧ (l < s.transaction.lookups.fresh →
        ∃ lookup, s.transaction.lookups.get l = some lookup ∧
          ∀ id, Lists lookup id → Lists lookup' id)) :
    QueriesInv conf s' queries where
  table := htable
  lookups := fun l lookup' hget => (hlookups l lookup' hget).1
  old := fun q hq => Nat.lt_of_lt_of_le (h.old q hq) hfresh
  listed := by
    intro q hq lookup' hget'
    obtain ⟨lookup, hget, hlists⟩ := (hlookups _ _ hget').2 (h.old q hq)
    exact hlists _ (h.listed q hq lookup hget)
  notMe := h.notMe
  once := h.once

/-- The lookups are the same. -/
theorem congr
    (h : QueriesInv conf s queries)
    (htable : TableInv conf.nodeId s'.nbhd)
    (hlookups : s'.transaction.lookups = s.transaction.lookups) :
    QueriesInv conf s' queries := by
  refine h.frame htable (Nat.le_of_eq (congrArg Heap.fresh hlookups.symm)) ?_
  intro l lookup' hget
  rw [hlookups] at hget
  exact ⟨h.lookups l lookup' hget, fun _ => ⟨lookup', hget, fun _ hid => hid⟩⟩

theorem modifyLookup
    (h : QueriesInv conf s queries) {l : Ref} {f : Lookup v → Lookup v}
    (hf : ∀ lookup, s.transaction.lookups.get l = some lookup → Extends lookup (f lookup)) :
    QueriesInv conf (s.modifyLookup l f) queries := by
  refine h.frame h.table (Nat.le_refl _) ?_
  intro q lookup' hget
  change (s.transaction.lookups.modify l f).get q = some lookup' at hget
  rcases eq_or_ne q l with rfl | hq
  · rw [Heap.get_modify_self] at hget
    obtain ⟨lookup, hlookup, rfl⟩ := Option.map_eq_some_iff.mp hget
    exact ⟨(hf lookup hlookup).inv, fun _ => ⟨lookup, hlookup, (hf lookup hlookup).lists⟩⟩
  · rw [Heap.get_modify_of_ne _ _ hq] at hget
    exact ⟨h.lookups q lookup' hget, fun _ => ⟨lookup', hget, fun _ hid => hid⟩⟩

/-- A node that was not listed is put and asked. -/
theorem ask
    (h : QueriesInv conf s queries) {l : Ref} {lookup : Lookup v}
    (hget : s.transaction.lookups.get l = some lookup) {id : NodeId}
    (hnew : ¬ Lists lookup id) (hme : id ≠ conf.nodeId) (sa : Ip v) (target : NodeId)
    (tid : Bytes) (hlimit : lookup.nodes.list.length < 32767) {f : Lookup v → Lookup v}
    (hf : f lookup = (ldbPut lookup id sa).2) :
    QueriesInv conf (s.modifyLookup l f) (queries ++ [⟨l, id, sa, target, tid⟩]) := by
  have hinv := h.lookups l lookup hget
  have hput : QueriesInv conf (s.modifyLookup l f) queries := by
    refine h.modifyLookup ?_
    intro lookup' hget'
    cases hget.symm.trans hget'
    rw [hf]
    exact extends_ldbPut hinv hnew sa
  have hlookup : (s.modifyLookup l f).transaction.lookups.get l =
      some (ldbPut lookup id sa).2 := by
    change (s.transaction.lookups.modify l f).get l = _
    rw [Heap.get_modify_self, hget, Option.map_some, hf]
  refine ⟨hput.table, hput.lookups, ?_, ?_, ?_, ?_⟩
  · intro q hq
    rcases List.mem_append.mp hq with hq | hq
    · exact hput.old q hq
    · rw [List.mem_singleton.mp hq]
      exact Heap.lt_fresh hlookup
  · intro q hq lookup' hget'
    rcases List.mem_append.mp hq with hq | hq
    · exact hput.listed q hq lookup' hget'
    · rw [List.mem_singleton.mp hq] at hget' ⊢
      cases hlookup.symm.trans hget'
      exact (hinv.lists_ldbPut_iff hnew sa hlimit id).mpr (.inl rfl)
  · intro q hq
    rcases List.mem_append.mp hq with hq | hq
    · exact h.notMe q hq
    · rw [List.mem_singleton.mp hq]
      exact hme
  · rw [List.map_append, List.map_singleton, ← List.concat_eq_append, List.nodup_concat]
    refine ⟨?_, h.once⟩
    intro hmem
    obtain ⟨q, hq, heq⟩ := List.mem_map.mp hmem
    obtain ⟨rfl, rfl⟩ := Prod.ext_iff.mp heq
    exact hnew (h.listed q hq lookup hget)

/-! ## Acts -/

/-- One round of `p2p_get_peers_get_nodes`. -/
theorem getNodesQuery
    (h : QueriesInv conf s queries) (l : Ref) (tid : Bytes) (node : NodeId × Ip v) :
    QueriesInv conf (getNodesQuery conf l tid s node)
      (queries ++ nodeQueries conf l tid s node) := by
  rw [Torrentkino.getNodesQuery, nodeQueries]
  split
  · rwa [List.append_nil]
  rename_i hme
  have hme : node.1 ≠ conf.nodeId := by
    rintro heq
    exact hme (by simp [nodeMe, heq])
  split
  · rwa [List.append_nil]
  have hput : QueriesInv conf (s.nbhdPut conf node.1 node.2) queries :=
    h.congr (h.table.nbhdStep (.put node.1 node.2) rfl) rfl
  change QueriesInv conf (match s.transaction.lookups.get l with
    | none => s.nbhdPut conf node.1 node.2
    | some lookup => _) _
  cases hget : s.transaction.lookups.get l with
  | none =>
      rwa [List.append_nil]
  | some lookup =>
      have hinv := h.lookups l lookup hget
      dsimp only
      split
      · rwa [List.append_nil]
      rename_i hfind
      have hnew := hinv.not_lists_of_ldbFind (Option.not_isSome_iff_eq_none.mp hfind)
      split
      · rw [List.append_nil]
        refine hput.modifyLookup ?_
        intro lookup' hget'
        cases hget.symm.trans hget'
        exact extends_ldbPut hinv hnew node.2
      · rename_i hnear
        -- At its limit `ldb_put` returns a position that is far behind.
        have hlimit : lookup.nodes.list.length < 32767 := by
          by_contra hfull
          rw [ldbPut, if_pos (Nat.not_lt.mp hfull)] at hnear
          exact hnear (show 8 ≤ 32767 by decide)
        have hask := hput.ask hget hnew hme node.2 lookup.target tid hlimit
          (f := fun _ => (ldbPut lookup node.1 node.2).2) rfl
        exact hask.congr hask.table rfl

theorem getNodesQueries
    (h : QueriesInv conf s queries) (l : Ref) (tid : Bytes) (nodes : List (NodeId × Ip v)) :
    QueriesInv conf (nodes.foldl (Torrentkino.getNodesQuery conf l tid) s)
      (queries ++ nodesQueries conf l tid s nodes) := by
  induction nodes generalizing s queries with
  | nil =>
      rwa [nodesQueries, List.append_nil]
  | cons node nodes ih =>
      rw [List.foldl_cons, nodesQueries, ← List.append_assoc]
      exact ih (h.getNodesQuery l tid node)

/-- The loop that starts a lookup, from some node on. -/
theorem lookupQueries
    (h : QueriesInv conf s queries) {l : Ref} {lookup : Lookup v}
    (hget : s.transaction.lookups.get l = some lookup) (target : NodeId) (tid : Bytes)
    {nodes : List (NodeId × Ip v)} (hnodup : (nodes.map Prod.fst).Nodup)
    (hnew : ∀ node ∈ nodes, ¬ Lists lookup node.1)
    (hme : ∀ node ∈ nodes, node.1 ≠ conf.nodeId)
    (hlimit : lookup.nodes.list.length + nodes.length ≤ 32767) :
    QueriesInv conf (nodes.foldl (lookupQuery conf l tid target) s)
      (queries ++ nodes.map fun node => ⟨l, node.1, node.2, target, tid⟩) := by
  induction nodes generalizing s queries lookup with
  | nil =>
      rwa [List.map_nil, List.append_nil]
  | cons node nodes ih =>
      obtain ⟨hnode, hnodup⟩ := List.nodup_cons.mp hnodup
      have hinv := h.lookups l lookup hget
      have hnew₁ := hnew node List.mem_cons_self
      rw [List.length_cons] at hlimit
      have hroom : lookup.nodes.list.length < 32767 := by
        omega
      have hask := h.ask hget hnew₁ (hme node List.mem_cons_self) node.2 target tid hroom
        (f := fun lookup => (ldbPut lookup node.1 node.2).2) rfl
      have hlookup : (lookupQuery conf l tid target s node).transaction.lookups.get l =
          some (ldbPut lookup node.1 node.2).2 := by
        change (s.transaction.lookups.modify l _).get l = _
        rw [Heap.get_modify_self, hget, Option.map_some]
      rw [List.foldl_cons, List.map_cons, List.append_cons]
      refine ih (hask.congr hask.table rfl) hlookup hnodup ?_
        (fun node' hnode' => hme node' (List.mem_cons_of_mem _ hnode')) ?_
      · intro node' hnode' hlists
        rcases (hinv.lists_ldbPut_iff hnew₁ node.2 hroom node'.1).mp hlists with heq | hlists
        · exact hnode (heq ▸ List.mem_map_of_mem hnode')
        · exact hnew node' (List.mem_cons_of_mem _ hnode') hlists
      · have hlen := (hinv.objects_ldbPut_perm hnew₁ node.2 hroom).length_eq
        have hinv' := (extends_ldbPut hinv hnew₁ node.2).inv
        rw [hinv'.length_objects, List.length_cons, hinv.length_objects] at hlen
        omega

/-- The nodes that are left for a loop that starts. -/
theorem nodes_beginLookup
    (s : Main v) (target : NodeId) (type : TidType) (query : Option (Ip v × DnsMsg)) :
    (beginLookup s target type query).1.nodes =
      (bcktCompactNodes s.nbhd.heap s.nbhd.bucket target).map fun n => (n.id, n.cAddr) :=
  compactTriples_bcktCompactList _ _ _

/-- The new lookup lists nobody. -/
theorem not_lists_ldbInit (target : NodeId) (query : Option (Ip v × DnsMsg)) (id : NodeId) :
    ¬ Lists (ldbInit target query) id := by
  rintro ⟨n, hn, -⟩
  cases hn

theorem get_beginLookup
    (s : Main v) (target : NodeId) (type : TidType) (query : Option (Ip v × DnsMsg)) :
    (beginLookup s target type query).2.transaction.lookups.get
        (beginLookup s target type query).1.lookup = some (ldbInit target query) :=
  Heap.get_alloc_self _ _

/-- The part of `p2p_cron_lookup` and `r_lookup_remote` before the loop. -/
theorem beginLookup
    (h : QueriesInv conf s queries) (target : NodeId) (type : TidType)
    (query : Option (Ip v × DnsMsg)) :
    QueriesInv conf (beginLookup s target type query).2 queries := by
  refine h.frame h.table (Nat.le_succ _) ?_
  intro l lookup' hget
  change (s.transaction.lookups.alloc (ldbInit target query)).get l = some lookup' at hget
  rcases eq_or_ne l s.transaction.lookups.fresh with rfl | hl
  · rw [Heap.get_alloc_self] at hget
    cases hget
    exact ⟨lookupInv_ldbInit target query, fun hlt => absurd hlt (Nat.lt_irrefl _)⟩
  · rw [Heap.get_alloc_of_ne _ _ hl] at hget
    exact ⟨h.lookups l lookup' hget, fun _ => ⟨lookup', hget, fun _ hid => hid⟩⟩

theorem beginLookup_ne_me
    (h : QueriesInv conf s queries) (target : NodeId) (type : TidType)
    (query : Option (Ip v × DnsMsg)) :
    ∀ node ∈ (Torrentkino.beginLookup s target type query).1.nodes, node.1 ≠ conf.nodeId := by
  rw [nodes_beginLookup]
  intro node hnode
  obtain ⟨n, hn, rfl⟩ := List.mem_map.mp hnode
  exact h.table.compactNodes_ne_me hn

theorem startLookup
    (h : QueriesInv conf s queries) (target : NodeId) (type : TidType)
    (query : Option (Ip v × DnsMsg)) :
    QueriesInv conf (startLookup conf s target type query)
      (queries ++ (compactTriples v (bcktCompactList s.nbhd.heap s.nbhd.bucket target)).map
        fun node => ⟨s.transaction.lookups.fresh, node.1, node.2, target,
          (s.tdbPut type).1.2⟩) := by
  refine (h.beginLookup target type query).lookupQueries
    (get_beginLookup s target type query) target _ ?_
    (fun node _ => not_lists_ldbInit target query node.1) (h.beginLookup_ne_me target type query) ?_
  · change ((Torrentkino.beginLookup s target type query).1.nodes.map Prod.fst).Nodup
    rw [nodes_beginLookup, List.map_map]
    exact h.table.inv.nodup_compactNodes target
  · change 0 + (Torrentkino.beginLookup s target type query).1.nodes.length ≤ 32767
    rw [nodes_beginLookup, List.length_map]
    have hle := bcktCompactNodes_length_le s.nbhd.heap s.nbhd.bucket target
    omega

theorem values
    (h : QueriesInv conf s queries) {id : NodeId} {ti : Ref} {token : Bytes} {values : List Ben}
    {sa : Ip v} (hvalues : p2pGetPeersGetValues s id ti token values sa = .ok s') :
    QueriesInv conf s' queries := by
  rcases p2pGetPeersGetValues_cases hvalues with rfl | ⟨l, lookup, -, hcases⟩
  · exact h
  have hupdate : QueriesInv conf
      (s.modifyLookup l fun lookup => ldbUpdate lookup id token sa) queries :=
    h.modifyLookup fun lookup hget => extends_ldbUpdate (h.lookups l lookup hget) id token sa
  rcases hcases with rfl | ⟨pairs, -, -, -, hanswer⟩
  · exact hupdate
  · obtain ⟨put, -, cache, sent, rfl, -⟩ := answerInitiator_cases hanswer
    have hcount := hupdate.modifyLookup (l := l)
      (f := fun lookup => (ldbNumberOfDnsResponses lookup).2) fun lookup hget =>
        ⟨⟨(hupdate.lookups l lookup hget).indexed, (hupdate.lookups l lookup hget).sorted⟩,
          fun _ hid => hid⟩
    exact hcount.congr hcount.table rfl

end QueriesInv

theorem queriesInv_loggedStep
    {conf : Conf} {t t' : Logged v} {a : Act v} (h : QueriesInv conf t.main t.queries)
    (hstep : loggedStep conf t a = .ok t') :
    QueriesInv conf t'.main t'.queries := by
  obtain ⟨main, hmain, rfl⟩ := map_eq_ok hstep
  dsimp only
  cases a with
  | lookup target type owner query =>
      cases hmain
      exact h.startLookup target type query
  | nodes id ti tid token nodes sa =>
      cases hmain
      rw [p2pGetPeersGetNodes, actQueries]
      cases t.main.lookupOf ti with
      | none =>
          rwa [List.append_nil]
      | some found =>
          refine QueriesInv.getNodesQueries (h.modifyLookup ?_) found.1 tid _
          intro lookup hget
          exact extends_ldbUpdate (h.lookups _ lookup hget) id token sa
  | values id ti token values sa =>
      simp only [actQueries, List.append_nil]
      exact h.values hmain
  | nbhd op =>
      simp only [actQueries, List.append_nil]
      rw [actStep] at hmain
      split at hmain
      · cases hmain
      · rename_i nbhd hnbhd
        cases hmain
        exact h.congr (h.table.nbhdStep op hnbhd) rfl
  | found r time =>
      cases hmain
      simp only [actQueries, List.append_nil]
      exact h.congr (h.table.modify r _ fun _ => rfl) rfl
  | tdbDel ti =>
      cases hmain
      simp only [actQueries, List.append_nil]
      refine h.frame h.table (Nat.le_of_eq (fresh_tdbDel _ ti).symm) ?_
      intro l lookup' hget
      have hget := get_of_get_tdbDel hget
      exact ⟨h.lookups l lookup' hget, fun _ => ⟨lookup', hget, fun _ hid => hid⟩⟩
  | event | store m | names names | tdbPut type other | send sa dict other | respond d =>
      cases hmain
      simp only [actQueries, List.append_nil]
      exact h.congr h.table rfl

/-- The invariant holds along all acts, for the queries that were made. -/
theorem queriesInv_acts
    {conf : Conf} {s s' : Main v} (hacts : Reaches (actStep conf) (fun _ => True) s s')
    (h : ∃ queries, QueriesInv conf s queries) :
    ∃ queries, QueriesInv conf s' queries := by
  refine Reaches.lift
    (r := fun s s' : Main v => (∃ queries, QueriesInv conf s queries) →
      ∃ queries, QueriesInv conf s' queries)
    (fun _ h => h) (fun h h' => h' ∘ h) ?_ hacts h
  rintro s s' a - hstep ⟨queries, h⟩
  have hlogged : loggedStep conf ⟨s, queries⟩ a = .ok ⟨s', queries ++ actQueries conf s a⟩ := by
    rw [loggedStep, hstep]
    rfl
  exact ⟨_, queriesInv_loggedStep (t := ⟨s, queries⟩) h hlogged⟩

theorem queriesInv_loggedInit
    (conf : Conf) (now : Int) (identity : List Identity) (rnd : Random) (names : Bytes) :
    QueriesInv conf (loggedInit now identity rnd names : Logged v).main
      (loggedInit now identity rnd names : Logged v).queries where
  table := tableInv_nbhdInit conf.nodeId
  lookups := fun _ _ hget => nomatch hget
  old := fun _ hq => nomatch hq
  listed := fun _ hq => nomatch hq
  notMe := fun _ hq => nomatch hq
  once := List.nodup_nil

/-- Every table that the daemon can have is in order. -/
theorem nbhdInv_run
    {conf : Conf} {s : Main v} {now : Int} {identity : List Identity} {rnd : Random} {names : Bytes}
    {events : List (Event v)}
    (hrun : run (daemonStep conf) (mainInit now identity rnd names) events = .ok s) :
    NbhdInv s.nbhd := by
  obtain ⟨queries, hinv⟩ := run_keeps
    (p := fun s : Main v => ∃ queries, QueriesInv conf s queries)
    (fun s e s' h hstep => queriesInv_acts (acts_daemonStep hstep) h) hrun
    ⟨_, queriesInv_loggedInit (v := v) conf now identity rnd names⟩
  exact hinv.table.inv

end Torrentkino
