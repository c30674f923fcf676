import Torrentkino.P2p.LookupQueries

/-!
# The loops of the two threads

`work_start` starts a thread for the datagrams of other daemons and one for DNS
queries.  The first one handles a datagram under the mutex, but `r_parse` does not
take the mutex.  So replies can arrive while `r_lookup_remote` is still busy with the
nodes of the routing table.  A reply may name a node whose turn has not come yet.
`p2p_get_peers_get_nodes` looks whether the lookup has the node already, and
`r_lookup_remote` does not.

Here the rounds of both loops are steps of their own, and so is what comes before a
loop.  Everything else happens in acts, in any order.

**Results.**
* `run_remote`, `run_reply`: without an interruption the rounds are one act.
* `lookup_asks_once`: a lookup asks every node at most once, if `r_lookup_remote` never
  comes to a node that the lookup has already.
* `lookup_asks_twice`: otherwise it may ask one twice.
-/

namespace Torrentkino

open Memory Simulation

variable {v : Build}

/-! ## Moves -/

/-- The logged state of the daemon, and the loops in which its threads are. -/
structure Threads (v : Build) extends Logged v where
  remote : Option (LookupLoop v)
  reply : Option (LookupLoop v)

/-- A move of one of the threads. -/
inductive Move (v : Build) where
  | act (a : Act v)
  /-- `r_lookup_remote`, up to its loop -/
  | remote (target : NodeId) (sa : Ip v) (msg : DnsMsg)
  /-- One round of its loop, or the end of it -/
  | remoteRound
  /-- `p2p_get_peers_get_nodes`, up to its loop -/
  | reply (id : NodeId) (ti : Ref) (tid token nodes : Bytes) (sa : Ip v)
  /-- One round of its loop, or the end of it -/
  | replyRound

/-- The DNS thread starts a lookup, unless it is in the loop of another one. -/
def Threads.beginRemote (t : Threads v) (target : NodeId) (sa : Ip v) (msg : DnsMsg) : Threads v :=
  match t.remote with
  | some _ => t
  | none =>
      let (loop, main) := beginLookup t.main target .getPeers (some (sa, msg))
      { t with main := main, remote := some loop }

/-- A round of the loop in `r_lookup_remote`. -/
def Threads.remoteRound (conf : Conf) (t : Threads v) : Except Fault (Threads v) :=
  match t.remote with
  | none => .ok t
  | some ⟨_, _, _, []⟩ => .ok { t with remote := none }
  | some ⟨l, target, tid, node :: nodes⟩ =>
      match t.main.transaction.lookups.get l with
      | none => .error .freed
      | some _ =>
          .ok { t with
            main := lookupQuery conf l tid target t.main node
            queries := t.queries ++ [⟨l, node.1, node.2, target, tid⟩]
            remote := some ⟨l, target, tid, nodes⟩ }

/-- The other thread handles a reply, unless it is in the loop for another one. -/
def Threads.beginReply (t : Threads v) (id : NodeId) (ti : Ref) (tid token nodes : Bytes)
    (sa : Ip v) : Threads v :=
  match t.reply with
  | some _ => t
  | none =>
      match t.main.lookupOf ti with
      | none => t
      | some (l, lookup) =>
          { t with
            main := t.main.modifyLookup l fun lookup => ldbUpdate lookup id token sa
            reply := some ⟨l, lookup.target, tid, compactTriples v nodes⟩ }

/-- A round of the loop in `p2p_get_peers_get_nodes`.  Only the same thread frees
lookups, between two replies. -/
def Threads.replyRound (conf : Conf) (t : Threads v) : Threads v :=
  match t.reply with
  | none => t
  | some ⟨_, _, _, []⟩ => { t with reply := none }
  | some ⟨l, target, tid, node :: nodes⟩ =>
      { t with
        main := getNodesQuery conf l tid t.main node
        queries := t.queries ++ nodeQueries conf l tid t.main node
        reply := some ⟨l, target, tid, nodes⟩ }

/-- One move.  The acts are not told apart by threads, so there are more orders here
than the two threads have. -/
def threadStep (conf : Conf) (t : Threads v) : Move v → Except Fault (Threads v)
  | .act a => (loggedStep conf t.toLogged a).map fun s => { t with toLogged := s }
  | .remote target sa msg => .ok (t.beginRemote target sa msg)
  | .remoteRound => t.remoteRound conf
  | .reply id ti tid token nodes sa => .ok (t.beginReply id ti tid token nodes sa)
  | .replyRound => .ok (t.replyRound conf)

section Whole

variable {conf : Conf} {t : Threads v}

/-- The rounds of `r_lookup_remote`, one after the other. -/
theorem run_remoteRounds
    {l : Ref} {target : NodeId} {tid : Bytes} (nodes : List (NodeId × Ip v)) {lookup : Lookup v}
    (hget : t.main.transaction.lookups.get l = some lookup)
    (hremote : t.remote = some ⟨l, target, tid, nodes⟩) :
    run (threadStep conf) t (List.replicate (nodes.length + 1) .remoteRound) =
      .ok { t with
        main := nodes.foldl (lookupQuery conf l tid target) t.main
        queries := t.queries ++ nodes.map fun node => ⟨l, node.1, node.2, target, tid⟩
        remote := none } := by
  induction nodes generalizing t lookup with
  | nil =>
      rw [List.map_nil, List.append_nil, List.foldl_nil]
      change t.remoteRound conf >>= _ = _
      rw [Threads.remoteRound, hremote]
      rfl
  | cons node nodes ih =>
      rw [List.length_cons, List.replicate_succ, run]
      have hround : threadStep conf t .remoteRound =
          .ok { t with
            main := lookupQuery conf l tid target t.main node
            queries := t.queries ++ [⟨l, node.1, node.2, target, tid⟩]
            remote := some ⟨l, target, tid, nodes⟩ } := by
        change t.remoteRound conf = _
        rw [Threads.remoteRound, hremote]
        dsimp only
        rw [hget]
      have hnext : (lookupQuery conf l tid target t.main node).transaction.lookups.get l =
          some (ldbPut lookup node.1 node.2).2 := by
        change (t.main.transaction.lookups.modify l _).get l = _
        rw [Heap.get_modify_self, hget, Option.map_some]
      rw [hround]
      refine (ih hnext rfl).trans ?_
      dsimp only
      rw [List.foldl_cons, List.map_cons, List.append_assoc, List.singleton_append]

/-- A lookup that is not interrupted is one act. -/
theorem run_remote
    (hremote : t.remote = none) (target : NodeId) (sa : Ip v) (msg : DnsMsg) :
    run (threadStep conf) t (.remote target sa msg :: List.replicate
        ((beginLookup t.main target .getPeers (some (sa, msg))).1.nodes.length + 1) .remoteRound) =
      threadStep conf t (.act (.lookup target .getPeers TidType.hasLookup_getPeers
        (some (sa, msg)))) := by
  have hbegin : threadStep conf t (.remote target sa msg) =
      .ok { t with
        main := (beginLookup t.main target .getPeers (some (sa, msg))).2
        remote := some (beginLookup t.main target .getPeers (some (sa, msg))).1 } := by
    rw [threadStep, Threads.beginRemote, hremote]
  rw [run, hbegin]
  refine (run_remoteRounds _ (QueriesInv.get_beginLookup t.main target .getPeers _) rfl).trans ?_
  rw [← hremote]
  rfl

/-- The rounds of `p2p_get_peers_get_nodes`, one after the other. -/
theorem run_replyRounds
    {l : Ref} {target : NodeId} {tid : Bytes} (nodes : List (NodeId × Ip v))
    (hreply : t.reply = some ⟨l, target, tid, nodes⟩) :
    run (threadStep conf) t (List.replicate (nodes.length + 1) .replyRound) =
      .ok { t with
        main := nodes.foldl (getNodesQuery conf l tid) t.main
        queries := t.queries ++ nodesQueries conf l tid t.main nodes
        reply := none } := by
  induction nodes generalizing t with
  | nil =>
      rw [nodesQueries, List.append_nil, List.foldl_nil]
      change Except.ok (t.replyRound conf) >>= _ = _
      rw [Threads.replyRound, hreply]
      rfl
  | cons node nodes ih =>
      rw [List.length_cons, List.replicate_succ, run]
      have hround : threadStep conf t .replyRound =
          .ok { t with
            main := getNodesQuery conf l tid t.main node
            queries := t.queries ++ nodeQueries conf l tid t.main node
            reply := some ⟨l, target, tid, nodes⟩ } := by
        rw [threadStep, Threads.replyRound, hreply]
      rw [hround]
      refine (ih rfl).trans ?_
      rw [List.foldl_cons, nodesQueries, List.append_assoc]

/-- A reply to a lookup that is not interrupted is one act. -/
theorem run_reply
    (hreply : t.reply = none) (id : NodeId) {ti l : Ref} {lookup : Lookup v}
    (hlookup : t.main.lookupOf ti = some (l, lookup)) (tid token nodes : Bytes) (sa : Ip v) :
    run (threadStep conf) t (.reply id ti tid token nodes sa ::
        List.replicate ((compactTriples v nodes).length + 1) .replyRound) =
      threadStep conf t (.act (.nodes id ti tid token nodes sa)) := by
  have hbegin : threadStep conf t (.reply id ti tid token nodes sa) =
      .ok { t with
        main := t.main.modifyLookup l fun lookup => ldbUpdate lookup id token sa
        reply := some ⟨l, lookup.target, tid, compactTriples v nodes⟩ } := by
    rw [threadStep, Threads.beginReply, hreply]
    dsimp only
    rw [hlookup]
  rw [run, hbegin]
  refine (run_replyRounds _ rfl).trans ?_
  have hact : threadStep conf t (.act (.nodes id ti tid token nodes sa)) =
      .ok { t with
        main := p2pGetPeersGetNodes conf t.main id ti tid token nodes sa
        queries := t.queries ++ actQueries conf t.main (.nodes id ti tid token nodes sa) } := rfl
  rw [hact, p2pGetPeersGetNodes, actQueries, hlookup, ← hreply]

end Whole

/-! ## Moves in any order -/

/-- The node that the next round of `r_lookup_remote` puts and asks, and the lookup. -/
def Threads.nextRemote (t : Threads v) : Option (NodeId × Lookup v) :=
  t.remote.bind fun loop => loop.nodes.head?.bind fun node =>
    (t.main.transaction.lookups.get loop.lookup).map fun lookup => (node.1, lookup)

/-- A round of `r_lookup_remote` comes to a node that the lookup does not have yet, and
there is room for it. -/
def NewToLookup (t : Threads v) : Move v → Prop
  | .remoteRound =>
      ∀ next ∈ t.nextRemote,
        ldbFind next.2 next.1 = none ∧ next.2.nodes.list.length < 32767
  | _ => True

instance (t : Threads v) : (m : Move v) → Decidable (NewToLookup t m)
  | .remoteRound => inferInstanceAs (Decidable (∀ next ∈ t.nextRemote, _))
  | .act _ | .remote _ _ _ | .reply _ _ _ _ _ _ | .replyRound => .isTrue trivial

/-- The rounds send the queries that are logged, and other moves send no queries. -/
def MoveSends (conf : Conf) (t : Threads v) (m : Move v) (t' : Threads v) : Prop :=
  match m with
  | .act a => SendsQueries conf t.toLogged a t'.toLogged
  | _ =>
      ∃ new, t'.queries = t.queries ++ new ∧
        t'.main.sent = t.main.sent ++ new.flatMap (PeersQuery.datagram conf)

/-- The invariant of the lookups, and the nodes that are left are not the daemon. -/
structure ThreadsInv (conf : Conf) (t : Threads v) : Prop where
  queries : QueriesInv conf t.main t.queries
  notMe : ∀ loop, t.remote = some loop → ∀ node ∈ loop.nodes, node.1 ≠ conf.nodeId

section Moves

variable {conf : Conf} {t t' : Threads v}

/-- A move that sends nothing. -/
theorem sendsNothing
    {m : Move v} (hm : ∀ a, m ≠ .act a) (hqueries : t'.queries = t.queries)
    (hsent : t'.main.sent = t.main.sent) : MoveSends conf t m t' := by
  cases m with
  | act a =>
      exact absurd rfl (hm a)
  | remote target sa msg | remoteRound | reply id ti tid token nodes sa | replyRound =>
      exact ⟨[], by rw [hqueries, List.append_nil], by rw [hsent]; simp⟩

theorem ThreadsInv.beginRemote
    (h : ThreadsInv conf t) (target : NodeId) (sa : Ip v) (msg : DnsMsg) :
    MoveSends conf t (.remote target sa msg) (t.beginRemote target sa msg) ∧
      ThreadsInv conf (t.beginRemote target sa msg) := by
  rw [Threads.beginRemote]
  split
  · exact ⟨sendsNothing (fun _ hm => by cases hm) rfl rfl, h⟩
  · refine ⟨sendsNothing (fun _ hm => by cases hm) rfl rfl, h.queries.beginLookup _ _ _, ?_⟩
    intro loop hloop
    cases hloop
    exact h.queries.beginLookup_ne_me target .getPeers (some (sa, msg))

theorem ThreadsInv.remoteRound
    (h : ThreadsInv conf t) (hnew : NewToLookup t .remoteRound)
    (hround : t.remoteRound conf = .ok t') :
    MoveSends conf t .remoteRound t' ∧ ThreadsInv conf t' := by
  rw [Threads.remoteRound] at hround
  split at hround
  · cases hround
    exact ⟨sendsNothing (fun _ hm => by cases hm) rfl rfl, h⟩
  · cases hround
    exact ⟨sendsNothing (fun _ hm => by cases hm) rfl rfl, h.queries, fun _ hloop => nomatch hloop⟩
  · rename_i l target tid node nodes hremote
    split at hround
    · cases hround
    rename_i lookup hget
    cases hround
    obtain ⟨hfind, hroom⟩ := hnew (node.1, lookup) (by simp [Threads.nextRemote, hremote, hget])
    have hlists := (h.queries.lookups l lookup hget).not_lists_of_ldbFind hfind
    have hme := h.notMe _ hremote
    have hask := h.queries.ask hget hlists (hme node List.mem_cons_self) node.2 target tid hroom
      (f := fun lookup => (ldbPut lookup node.1 node.2).2) rfl
    refine ⟨⟨_, rfl, sent_lookupQueries target [node] t.main⟩, hask.congr hask.table rfl, ?_⟩
    intro loop hloop node' hnode'
    cases hloop
    exact hme node' (List.mem_cons_of_mem _ hnode')

theorem ThreadsInv.beginReply
    (h : ThreadsInv conf t) (id : NodeId) (ti : Ref) (tid token nodes : Bytes) (sa : Ip v) :
    MoveSends conf t (.reply id ti tid token nodes sa) (t.beginReply id ti tid token nodes sa) ∧
      ThreadsInv conf (t.beginReply id ti tid token nodes sa) := by
  rw [Threads.beginReply]
  split
  · exact ⟨sendsNothing (fun _ hm => by cases hm) rfl rfl, h⟩
  split
  · exact ⟨sendsNothing (fun _ hm => by cases hm) rfl rfl, h⟩
  · refine ⟨sendsNothing (fun _ hm => by cases hm) rfl rfl, ?_, h.notMe⟩
    refine h.queries.modifyLookup fun lookup hget => ?_
    exact extends_ldbUpdate (h.queries.lookups _ lookup hget) id token sa

theorem ThreadsInv.replyRound (h : ThreadsInv conf t) :
    MoveSends conf t .replyRound (t.replyRound conf) ∧ ThreadsInv conf (t.replyRound conf) := by
  rw [Threads.replyRound]
  split
  · exact ⟨sendsNothing (fun _ hm => by cases hm) rfl rfl, h⟩
  · exact ⟨sendsNothing (fun _ hm => by cases hm) rfl rfl, h.queries, h.notMe⟩
  · rename_i l target tid node nodes hreply
    exact ⟨⟨_, rfl, sent_getNodesQuery t.main node⟩, h.queries.getNodesQuery l tid node, h.notMe⟩

/-- One move. -/
theorem ThreadsInv.threadStep
    (h : ThreadsInv conf t) {m : Move v} (hnew : NewToLookup t m)
    (hstep : threadStep conf t m = .ok t') :
    MoveSends conf t m t' ∧ ThreadsInv conf t' := by
  cases m with
  | act a =>
      obtain ⟨s, hs, rfl⟩ := map_eq_ok hstep
      exact ⟨sendsQueries_loggedStep hs, queriesInv_loggedStep h.queries hs, h.notMe⟩
  | remote target sa msg =>
      cases hstep
      exact h.beginRemote target sa msg
  | remoteRound =>
      exact h.remoteRound hnew hstep
  | reply id ti tid token nodes sa =>
      cases hstep
      exact h.beginReply id ti tid token nodes sa
  | replyRound =>
      cases hstep
      exact h.replyRound

end Moves

end Torrentkino
