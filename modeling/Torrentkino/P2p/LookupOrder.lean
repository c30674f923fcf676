import Torrentkino.Lib.Sorted
import Torrentkino.P2p.Cron
import Torrentkino.P2p.Distance
import Torrentkino.P2p.Krpc
import Torrentkino.Shr.Sequence

/-!
# The nodes of a lookup

A lookup lists the nodes it knows by their distance to the target, and finds
them by identifier through a hash.  The tokens of their replies are noted
through the hash and read in the order of the list when the lookup has ended.

**Results.**
* `LookupInv`, with `LookupInv.ldbPut` and `LookupInv.ldbUpdate`: list and hash
  stay in step, and the list stays sorted.
* `lookup_announces_nearest`: after any calls the list is sorted and complete,
  `ldb_put` returns the number of nearer nodes, and the announces of an expired
  transaction go to the nearest nodes that have returned a token since they were
  listed.  A token that comes before is dropped.
-/

namespace Torrentkino

open Memory

variable {v : Build}

/-- The key of a node in the hash of its lookup. -/
def NodeL.key (n : NodeL v) : Bytes :=
  n.id.bytes

/-- The distance of a node to the target. -/
def NodeL.distance (target : NodeId) (n : NodeL v) : Nat :=
  n.id.distance target

/-- List and hash agree, and the list is sorted. -/
structure LookupInv (l : Lookup v) : Prop where
  indexed : ∃ ix : Index (NodeL.key (v := v)), ix.toTable = l.nodes
  sorted : Sorted (NodeL.distance l.target) l.nodes.objects

theorem lookupInv_ldbInit (target : NodeId) (query : Option (Ip v × DnsMsg)) :
    LookupInv (ldbInit target query) where
  indexed := ⟨.init 1000 (by decide), rfl⟩
  sorted := List.Pairwise.nil

section Calls

variable {l : Lookup v}

/-- The node is not listed. -/
theorem LookupInv.ldbFind_eq_none_iff (h : LookupInv l) (id : NodeId) :
    ldbFind l id = none ↔ ∀ n ∈ l.nodes.objects, n.id ≠ id := by
  obtain ⟨ix, hix⟩ := h.indexed
  rw [ldbFind, ← hix, ix.find_eq_none_iff]
  constructor
  · intro hall n hn heq
    exact hall n hn (congrArg NodeId.bytes heq)
  · intro hall n hn heq
    exact hall n hn (NodeId.bytes_inj heq)

/-- The search of `ldb_put` ends at the place that belongs to the distance. -/
theorem LookupInv.ldbPosition_eq (h : LookupInv l) (id : NodeId) :
    ldbPosition l id =
      placeOf (NodeL.distance l.target) l.nodes.objects (id.distance l.target) := by
  obtain ⟨ix, hix⟩ := h.indexed
  rw [ldbPosition, placeOf, ← hix, ← ix.findIdx_list, hix]
  refine congrArg (l.nodes.list.findIdx ·) (funext fun r => ?_)
  rw [ldbFarther]
  refine congrArg (Option.any · _) (funext fun n => ?_)
  exact decide_eq_decide.mpr (NodeId.strSha1Compare_neg_iff _ _ _)

/-- A new node goes to its place. -/
theorem LookupInv.objects_ldbPut
    (h : LookupInv l) {id : NodeId} (sa : Ip v)
    (hnew : ∀ n ∈ l.nodes.objects, n.id ≠ id) (hlimit : l.nodes.list.length < 32767) :
    (ldbPut l id sa).2.nodes.objects =
      l.nodes.objects.take (ldbPut l id sa).1 ++
        ⟨id, sa, []⟩ :: l.nodes.objects.drop (ldbPut l id sa).1 := by
  have hfind := (h.ldbFind_eq_none_iff id).mpr hnew
  obtain ⟨ix, hix⟩ := h.indexed
  have hkey : ix.find (NodeL.key (⟨id, sa, []⟩ : NodeL v)) = none := by
    rw [hix]
    exact hfind
  rw [ldbPut, if_neg (Nat.not_le.mpr hlimit)]
  dsimp only
  rw [← hix]
  exact ix.objects_insert _ ⟨id, sa, []⟩ hkey

/-- The place is the number of nodes that are nearer. -/
theorem LookupInv.ldbPut_fst
    (h : LookupInv l) {id : NodeId} (sa : Ip v)
    (hnew : ∀ n ∈ l.nodes.objects, n.id ≠ id) (hlimit : l.nodes.list.length < 32767) :
    (ldbPut l id sa).1 =
      l.nodes.objects.countP fun n => n.distance l.target < id.distance l.target := by
  rw [ldbPut, if_neg (Nat.not_le.mpr hlimit)]
  dsimp only
  rw [h.ldbPosition_eq, h.sorted.placeOf_eq_countP]
  intro n hn heq
  exact hnew n hn (NodeId.distance_inj heq)

theorem target_ldbPut (l : Lookup v) (id : NodeId) (sa : Ip v) :
    (ldbPut l id sa).2.target = l.target := by
  rw [ldbPut]
  split <;> rfl

theorem LookupInv.ldbPut
    (h : LookupInv l) {id : NodeId} (sa : Ip v)
    (hnew : ∀ n ∈ l.nodes.objects, n.id ≠ id) :
    LookupInv (ldbPut l id sa).2 := by
  by_cases hlimit : l.nodes.list.length < 32767
  · constructor
    · obtain ⟨ix, hix⟩ := h.indexed
      have hkey : ix.find (NodeL.key (⟨id, sa, []⟩ : NodeL v)) = none := by
        rw [hix]
        exact (h.ldbFind_eq_none_iff id).mpr hnew
      refine ⟨ix.insert (ldbPosition l id) ⟨id, sa, []⟩ hkey, ?_⟩
      rw [Torrentkino.ldbPut, if_neg (Nat.not_le.mpr hlimit)]
      dsimp only
      rw [← hix]
      rfl
    · have hplace : (Torrentkino.ldbPut l id sa).1 =
          placeOf (NodeL.distance l.target) l.nodes.objects
            (NodeL.distance l.target (⟨id, sa, []⟩ : NodeL v)) := by
        rw [Torrentkino.ldbPut, if_neg (Nat.not_le.mpr hlimit)]
        exact h.ldbPosition_eq id
      rw [target_ldbPut, h.objects_ldbPut sa hnew hlimit, hplace]
      refine h.sorted.insert ?_
      intro n hn heq
      exact hnew n hn (NodeId.distance_inj heq)
  · rw [Torrentkino.ldbPut, if_pos (Nat.not_lt.mp hlimit)]
    exact h

/-- `ldb_update` changes the node with the identifier, if there is one. -/
theorem LookupInv.objects_ldbUpdate
    (h : LookupInv l) (id : NodeId) (token : Bytes) (sa : Ip v) :
    (ldbUpdate l id token sa).nodes.objects =
      l.nodes.objects.map fun n => if n.id = id then ⟨n.id, sa, token⟩ else n := by
  have hnone := h.ldbFind_eq_none_iff id
  obtain ⟨ix, hix⟩ := h.indexed
  rw [ldbUpdate]
  split
  · rename_i hfind
    refine ((List.map_congr_left ?_).trans (List.map_id _)).symm
    intro n hn
    exact if_neg (hnone.mp hfind n hn)
  · rename_i r hr
    dsimp only
    rw [← hix] at hr ⊢
    obtain ⟨m, hm, hkey⟩ := (ix.find_eq_some_iff _ _).mp hr
    refine (ix.objects_modify hm (fun n => { n with cAddr := sa, token := token })
      fun _ _ => rfl).trans (List.map_congr_left ?_)
    intro n _
    have hiff : n.key = m.key ↔ n.id = id := by
      rw [hkey]
      exact ⟨NodeId.bytes_inj, congrArg NodeId.bytes⟩
    rw [if_congr hiff rfl rfl]

theorem target_ldbUpdate (l : Lookup v) (id : NodeId) (token : Bytes) (sa : Ip v) :
    (ldbUpdate l id token sa).target = l.target := by
  rw [ldbUpdate]
  split <;> rfl

theorem LookupInv.ldbUpdate
    (h : LookupInv l) (id : NodeId) (token : Bytes) (sa : Ip v) :
    LookupInv (ldbUpdate l id token sa) := by
  constructor
  · obtain ⟨ix, hix⟩ := h.indexed
    rw [Torrentkino.ldbUpdate]
    split
    · exact ⟨ix, hix⟩
    · rename_i r hr
      refine ⟨ix.modify r (fun n => { n with cAddr := sa, token := token }) fun _ _ => rfl, ?_⟩
      dsimp only
      rw [← hix]
      rfl
  · rw [target_ldbUpdate, h.objects_ldbUpdate, Sorted, List.pairwise_map]
    refine h.sorted.imp ?_
    intro a b hab
    have hdistance : ∀ n : NodeL v, NodeL.distance l.target
        (if n.id = id then ⟨n.id, sa, token⟩ else n) = NodeL.distance l.target n := by
      intro n
      split <;> rfl
    rwa [hdistance, hdistance]

end Calls

/-! ## Histories -/

/-- A call for a lookup; tokens have the sizes that the checks of a reply let
pass. -/
inductive LdbOp (v : Build) where
  | put (id : NodeId) (sa : Ip v)
  | update (id : NodeId) (token : HandedToken) (sa : Ip v)

/-- One call. -/
def ldbStep (l : Lookup v) : LdbOp v → Lookup v
  | .put id sa => (ldbPut l id sa).2
  | .update id token sa => ldbUpdate l id token.bytes sa

/-- The identifier of a node that is put. -/
def LdbOp.putId : LdbOp v → Option NodeId
  | put id _ => some id
  | update _ _ _ => none

/-- The identifiers of all nodes that were put. -/
def putIds (ops : List (LdbOp v)) : List NodeId :=
  ops.filterMap LdbOp.putId

/-- What a node is known to have returned, after one more call. -/
def noteReturned (id : NodeId) (known : Option (Ip v × Bytes)) :
    LdbOp v → Option (Ip v × Bytes)
  | .put _ _ => known
  | .update id' token sa => if id' = id then some (sa, token.bytes) else known

/-- The last address and token that a node has returned. -/
def lastReturned (ops : List (LdbOp v)) (id : NodeId) : Option (Ip v × Bytes) :=
  ops.foldl (noteReturned id) none

/-- The last address and token that a node has returned since it was put. -/
def lastReturnedListed (ops : List (LdbOp v)) (id : NodeId) : Option (Ip v × Bytes) :=
  ops.foldl (fun known op => if op.putId = some id then none else noteReturned id known op) none

/-- The listed nodes that have returned a token, in the order of the list, with
what they have returned. -/
def tokenNodes (returned : NodeId → Option (Ip v × Bytes)) (l : Lookup v) : List (NodeL v) :=
  l.nodes.objects.filterMap fun n => (returned n.id).map fun r => ⟨n.id, r.1, r.2⟩

/-- The announce that a node gets. -/
def announceDatagram (conf : Conf) (target : NodeId) (n : NodeL v) (tid : Bytes) : Sent v :=
  .p2p ⟨n.cAddr,
    benEncRec (announceRequestDict conf.nodeId target conf.announcePort n.token tid)⟩

/-- When a transaction with this lookup expires, the first eight of these nodes
get an announce, and nothing else is sent. -/
def AnnouncesTo (nodes : List (NodeL v)) (l : Lookup v) : Prop :=
  ∀ (conf : Conf) (s : Main v) (ti r : Ref) (tid : Tid),
    s.transaction.tids.heap.get ti = some tid → tid.type = .announceStart →
    tid.lookup = some r → s.transaction.lookups.get r = some l → s.now > tid.time →
    ∃ tids : List Bytes, tids.length = min 8 nodes.length ∧
      (tdbExpireItem conf s ti).sent =
        s.sent ++ List.zipWith (announceDatagram conf l.target) (nodes.take 8) tids

/-- What is expected of the lookup that a history of calls leaves, for a notion
of what a node has returned. -/
structure KeepsNearest (returned : List (LdbOp v) → NodeId → Option (Ip v × Bytes))
    (ops : List (LdbOp v)) (l : Lookup v) : Prop where
  /-- The list is sorted by the distance to the target. -/
  sorted : Sorted (NodeL.distance l.target) l.nodes.objects
  /-- The nodes that were put are listed, and no others. -/
  listed : ∀ id, (∃ n ∈ l.nodes.objects, n.id = id) ↔ id ∈ putIds ops
  /-- The next `ldb_put` returns the number of nearer nodes, and inserts there. -/
  put : ∀ id sa, id ∉ putIds ops → (putIds ops).length < 32767 →
    (ldbPut l id sa).1 =
        l.nodes.objects.countP (fun n => n.distance l.target < id.distance l.target) ∧
      (ldbPut l id sa).2.nodes.objects =
        l.nodes.objects.take (ldbPut l id sa).1 ++
          ⟨id, sa, []⟩ :: l.nodes.objects.drop (ldbPut l id sa).1
  /-- The announces go to the nearest nodes that have returned a token. -/
  announces : AnnouncesTo (tokenNodes (returned ops) l) l

/-! ## What is noted of a node -/

/-- The list is what the history says. -/
structure HistoryInv (ops : List (LdbOp v)) (l : Lookup v) : Prop where
  lookup : LookupInv l
  ids : (l.nodes.objects.map NodeL.id).Perm (putIds ops)
  noted : ∀ n ∈ l.nodes.objects, lastReturnedListed ops n.id =
    if n.token = [] then none else some (n.cAddr, n.token)

theorem HistoryInv.mem_iff {ops : List (LdbOp v)} {l : Lookup v} (h : HistoryInv ops l)
    (id : NodeId) :
    (∃ n ∈ l.nodes.objects, n.id = id) ↔ id ∈ putIds ops := by
  rw [← h.ids.mem_iff, List.mem_map]

theorem HistoryInv.length_list {ops : List (LdbOp v)} {l : Lookup v} (h : HistoryInv ops l) :
    l.nodes.list.length = (putIds ops).length := by
  obtain ⟨ix, hix⟩ := h.lookup.indexed
  rw [← h.ids.length_eq, List.length_map, ← hix, ix.length_objects]

theorem historyInv_ldbInit (target : NodeId) (query : Option (Ip v × DnsMsg)) :
    HistoryInv [] (ldbInit target query) where
  lookup := lookupInv_ldbInit target query
  ids := List.Perm.refl _
  noted := by
    intro n hn
    cases hn

theorem lastReturnedListed_append (ops : List (LdbOp v)) (op : LdbOp v) (id : NodeId) :
    lastReturnedListed (ops ++ [op]) id =
      if op.putId = some id then none else noteReturned id (lastReturnedListed ops id) op := by
  rw [lastReturnedListed, List.foldl_append]
  rfl

theorem HistoryInv.put
    {ops : List (LdbOp v)} {l : Lookup v} (h : HistoryInv ops l) {id : NodeId} (sa : Ip v)
    (hnew : id ∉ putIds ops) (hlimit : (putIds ops).length < 32767) :
    HistoryInv (ops ++ [.put id sa]) (ldbPut l id sa).2 := by
  have hne : ∀ n ∈ l.nodes.objects, n.id ≠ id := by
    intro n hn heq
    exact hnew ((h.mem_iff id).mp ⟨n, hn, heq⟩)
  have hobjects := h.lookup.objects_ldbPut sa hne (h.length_list ▸ hlimit)
  have hperm : (ldbPut l id sa).2.nodes.objects.Perm (⟨id, sa, []⟩ :: l.nodes.objects) := by
    rw [hobjects]
    refine List.perm_middle.trans ?_
    rw [List.take_append_drop]
  constructor
  · exact h.lookup.ldbPut sa hne
  · have hputs : putIds (ops ++ [.put id sa]) = putIds ops ++ [id] := by
      simp [putIds, LdbOp.putId]
    rw [hputs]
    refine (hperm.map _).trans ?_
    exact (h.ids.cons id).trans (List.perm_append_singleton _ _).symm
  · intro n hn
    rw [lastReturnedListed_append]
    rcases List.mem_cons.mp (hperm.mem_iff.mp hn) with rfl | hn
    · exact if_pos rfl
    · have hother : (LdbOp.put id sa).putId ≠ some n.id := by
        intro heq
        exact hne n hn (Option.some.inj heq).symm
      rw [if_neg hother]
      exact h.noted n hn

theorem HistoryInv.update
    {ops : List (LdbOp v)} {l : Lookup v} (h : HistoryInv ops l) (id : NodeId)
    (token : HandedToken) (sa : Ip v) :
    HistoryInv (ops ++ [.update id token sa]) (ldbUpdate l id token.bytes sa) := by
  have hobjects := h.lookup.objects_ldbUpdate id token.bytes sa
  have htoken : token.bytes ≠ [] := by
    intro hnil
    have hpos := token.le_length
    rw [hnil] at hpos
    cases hpos
  constructor
  · exact h.lookup.ldbUpdate id token.bytes sa
  · have hputs : putIds (ops ++ [.update id token sa]) = putIds ops := by
      simp [putIds, LdbOp.putId]
    have hids : NodeL.id ∘ (fun n : NodeL v =>
        if n.id = id then ⟨n.id, sa, token.bytes⟩ else n) = NodeL.id := by
      funext n
      simp only [Function.comp]
      split <;> rfl
    rw [hputs, hobjects, List.map_map, hids]
    exact h.ids
  · rw [hobjects]
    intro m hm
    obtain ⟨n, hn, rfl⟩ := List.mem_map.mp hm
    rw [lastReturnedListed_append]
    by_cases heq : n.id = id
    · simp [heq, LdbOp.putId, noteReturned, htoken]
    · simp only [heq, if_false, LdbOp.putId, noteReturned, Ne.symm heq, reduceCtorEq]
      exact h.noted n hn

theorem historyInv_run
    (target : NodeId) (query : Option (Ip v × DnsMsg)) (ops : List (LdbOp v))
    (hnodup : (putIds ops).Nodup) (hlimit : (putIds ops).length ≤ 32767) :
    HistoryInv ops (ops.foldl ldbStep (ldbInit target query)) := by
  induction ops using List.reverseRecOn with
  | nil =>
      exact historyInv_ldbInit target query
  | append_singleton ops op ih =>
      rw [putIds, List.filterMap_append] at hnodup hlimit
      have h := ih (List.nodup_append.mp hnodup).1 (by
        rw [List.length_append] at hlimit
        exact Nat.le_trans (Nat.le_add_right _ _) hlimit)
      rw [List.foldl_append, List.foldl_cons, List.foldl_nil]
      cases op with
      | put id sa =>
          have hnew : id ∉ putIds ops := fun hmem =>
            (List.nodup_append.mp hnodup).2.2 id hmem id List.mem_cons_self rfl
          have hroom : (putIds ops).length < 32767 := by
            rw [List.length_append] at hlimit
            exact hlimit
          exact h.put sa hnew hroom
      | update id token sa =>
          exact h.update id token sa

theorem target_foldl_ldbStep (ops : List (LdbOp v)) (l : Lookup v) :
    (ops.foldl ldbStep l).target = l.target := by
  refine List.foldlRecOn (motive := fun m : Lookup v => m.target = l.target) ops _ rfl ?_
  intro m hm op _
  cases op with
  | put id sa =>
      exact (target_ldbPut m id sa).trans hm
  | update id token sa =>
      exact (target_ldbUpdate m id token.bytes sa).trans hm

/-! ## The announces -/

theorem sent_announceTo (conf : Conf) (target : NodeId) (s : Main v) (n : NodeL v) :
    (announceTo conf target s n).sent =
      s.sent ++ [announceDatagram conf target n (s.tdbPut .announceEngage).1.2] := by
  simp [announceTo, sendAnnounceRequest, Main.send, sendUdp, announceDatagram, Main.tdbPut]

theorem sent_foldl_announceTo
    (conf : Conf) (target : NodeId) (nodes : List (NodeL v)) (s : Main v) :
    ∃ tids : List Bytes, tids.length = nodes.length ∧
      (nodes.foldl (announceTo conf target) s).sent =
        s.sent ++ List.zipWith (announceDatagram conf target) nodes tids := by
  induction nodes generalizing s with
  | nil =>
      exact ⟨[], rfl, by simp⟩
  | cons n nodes ih =>
      obtain ⟨tids, hlen, hsent⟩ := ih (announceTo conf target s n)
      refine ⟨(s.tdbPut .announceEngage).1.2 :: tids, by simp [hlen], ?_⟩
      rw [List.foldl_cons, hsent, sent_announceTo, List.zipWith_cons_cons, List.append_assoc]
      rfl

/-- An expired transaction announces to the first eight listed nodes with a
token. -/
theorem announcesTo_filter (l : Lookup v) :
    AnnouncesTo (l.nodes.objects.filter fun n => n.token ≠ []) l := by
  intro conf s ti r tid htid htype hlookup hl hexpired
  have hof : s.lookupOf ti = some (r, l) := by
    simp [Main.lookupOf, tdbLdb, htid, hlookup, hl]
  obtain ⟨tids, hlen, hsent⟩ := sent_foldl_announceTo conf l.target
    ((l.nodes.objects.filter fun n => n.token ≠ []).take 8) s
  refine ⟨tids, by rw [hlen, List.length_take], ?_⟩
  rw [← hsent, tdbExpireItem, htid]
  dsimp only
  rw [if_pos hexpired, if_pos htype, p2pCronAnnounce, hof]

/-- The nodes with a token are those that have returned one. -/
theorem HistoryInv.tokenNodes_eq
    {ops : List (LdbOp v)} {l : Lookup v} (h : HistoryInv ops l) :
    tokenNodes (lastReturnedListed ops) l = l.nodes.objects.filter fun n => n.token ≠ [] := by
  rw [tokenNodes, ← List.filterMap_eq_filter]
  refine List.filterMap_congr ?_
  intro n hn
  rw [h.noted n hn]
  by_cases htoken : n.token = [] <;> simp [Option.guard, htoken]

/-- Whatever nodes are put and whatever they return, in any order: the list of a
lookup is sorted by the distance to the target and complete, `ldb_put` returns
the number of nearer nodes, and the announces go to the nearest of the nodes that
have returned a token since they were listed, with what they have returned
last. -/
theorem lookup_announces_nearest
    (target : NodeId) (query : Option (Ip v × DnsMsg)) (ops : List (LdbOp v))
    (hnodup : (putIds ops).Nodup) (hlimit : (putIds ops).length ≤ 32767) :
    (ops.foldl ldbStep (ldbInit target query)).target = target ∧
      KeepsNearest lastReturnedListed ops (ops.foldl ldbStep (ldbInit target query)) := by
  have h := historyInv_run target query ops hnodup hlimit
  refine ⟨target_foldl_ldbStep ops _, h.lookup.sorted, h.mem_iff, ?_, ?_⟩
  · intro id sa hnew hroom
    have hne : ∀ n ∈ (ops.foldl ldbStep (ldbInit target query)).nodes.objects, n.id ≠ id := by
      intro n hn heq
      exact hnew ((h.mem_iff id).mp ⟨n, hn, heq⟩)
    rw [← h.length_list] at hroom
    exact ⟨h.lookup.ldbPut_fst sa hne hroom, h.lookup.objects_ldbPut sa hne hroom⟩
  · rw [h.tokenNodes_eq]
    exact announcesTo_filter _

/-- The node with this byte in all places of its identifier is put. -/
def putAll (b : UInt8) : LdbOp .ipv4 :=
  .put (.all b) (.ofQuad 10 0 0 b (26, 225))

/-- It returns a token, from a port with this low byte. -/
def returnAll (token port b : UInt8) : LdbOp .ipv4 :=
  .update (.all b) ⟨[token], by simp, by simp [tokenSizeMax]⟩ (.ofQuad 10 0 0 b (26, port))

/-- Eleven nodes are put.  All of them but the fourth return a token, and the third
one does it twice, the second time from another port. -/
def elevenNodes : List (LdbOp .ipv4) :=
  [6, 3, 9, 1, 8, 2].map putAll ++ [3, 9, 2].map (returnAll 7 225) ++
    [10, 4, 7, 5, 11].map putAll ++ [11, 10, 8, 7, 6, 5, 1].map (returnAll 7 225) ++
    [returnAll 8 226 3]

/-- The list has the nodes in the order of their distances, and the first eight with a
token are the nearest nodes without the fourth. -/
theorem lookup_announces_nearest_elevenNodes :
    (elevenNodes.foldl ldbStep (ldbInit .zero none)).nodes.objects.map NodeL.id =
        [1, 2, 3, 4, 5, 6, 7, 8, 9, 10, 11].map NodeId.all ∧
      ((tokenNodes (lastReturnedListed elevenNodes)
          (elevenNodes.foldl ldbStep (ldbInit .zero none))).take 8).map
          (fun n => (n.id, n.token, n.cAddr.port)) =
        [(.all 1, [7], (26, 225)), (.all 2, [7], (26, 225)), (.all 3, [8], (26, 226)),
          (.all 5, [7], (26, 225)), (.all 6, [7], (26, 225)), (.all 7, [7], (26, 225)),
          (.all 8, [7], (26, 225)), (.all 9, [7], (26, 225))] ∧
      KeepsNearest lastReturnedListed elevenNodes
        (elevenNodes.foldl ldbStep (ldbInit .zero none)) :=
  ⟨by decide +kernel, by decide +kernel,
    (lookup_announces_nearest .zero none elevenNodes (by decide) (by decide)).2⟩

/-- The node returns its token before it is put. -/
def earlyToken : List (LdbOp .ipv4) :=
  [.update .zero ⟨[7], by decide, by decide⟩ (.ofQuad 10 0 0 2 (26, 225)),
    .put .zero (.ofQuad 10 0 0 2 (26, 225))]

/-- A daemon whose transaction with that lookup has expired. -/
def earlyTokenMain : Main .ipv4 :=
  let s := ((mainInit 0 [] ⟨fun _ => 0, UInt8.ofNat⟩ []).tdbPut .announceStart).2
  { s with
    transaction := tdbLinkLdb s.transaction 0 (earlyToken.foldl ldbStep (ldbInit .zero none))
    p2p := { s.p2p with timeNow := 61 } }

/-- `ldb_update` does not know the node yet, and the node gets no announce. -/
theorem not_keepsNearest_earlyToken :
    ¬ ∀ (v : Build) (target : NodeId) (query : Option (Ip v × DnsMsg)) (ops : List (LdbOp v)),
      (putIds ops).Nodup → (putIds ops).length ≤ 32767 →
        KeepsNearest lastReturned ops (ops.foldl ldbStep (ldbInit target query)) := by
  intro hall
  have hannounces := (hall .ipv4 .zero none earlyToken (by decide) (by decide)).announces
  obtain ⟨tid, htid, htype, hlookup, htime⟩ :
      ∃ tid, earlyTokenMain.transaction.tids.heap.get 0 = some tid ∧ tid.type = .announceStart ∧
        tid.lookup = some 0 ∧ earlyTokenMain.now > tid.time := ⟨_, rfl, rfl, rfl, by decide⟩
  obtain ⟨tids, hlen, hsent⟩ :=
    hannounces onesConf earlyTokenMain 0 0 tid htid htype hlookup rfl htime
  have hone : (tokenNodes (lastReturned earlyToken)
      (earlyToken.foldl ldbStep (ldbInit .zero none))).length = 1 := by
    decide +kernel
  have hnothing : (tdbExpireItem onesConf earlyTokenMain 0).sent = earlyTokenMain.sent := by
    decide +kernel
  rw [hnothing] at hsent
  have hcount := congrArg List.length hsent
  rw [List.length_append, List.length_zipWith, List.length_take, hlen, hone] at hcount
  omega

end Torrentkino
