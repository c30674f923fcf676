import Torrentkino.P2p.Reply

/-!
# `p2p/p2p.c`: periodic tasks

`p2p_cron` and what it calls, among them `tdb_expire` and `cache_renew` of the
other files, which call back into `p2p.c`.  The daemon is running: `status` is
`RUMBLE`.  Registering the multicast address is left out, it only touches the
socket.
-/

namespace Torrentkino

open Memory Simulation

section Cron

variable {v : Build}

/-- Query one node for the target of a lookup, and remember it there. -/
def lookupQuery (conf : Conf) (l : Ref) (tid : Bytes) (target : NodeId) (s : Main v)
    (node : NodeId × Ip v) : Main v :=
  let s := s.modifyLookup l fun lookup => (ldbPut lookup node.1 node.2).2
  sendGetPeersRequest conf s node.2 target tid

/-- A loop over nodes on behalf of a lookup: the lookup with its target and the
transaction identifier of its queries, and the nodes that are left. -/
structure LookupLoop (v : Build) where
  lookup : Ref
  target : NodeId
  tid : Bytes
  nodes : List (NodeId × Ip v)

/-- What `p2p_cron_lookup` and `r_lookup_remote` do before their loop. -/
def beginLookup (s : Main v) (target : NodeId) (type : TidType)
    (query : Option (Ip v × DnsMsg)) : LookupLoop v × Main v :=
  let list := bcktCompactList s.nbhd.heap s.nbhd.bucket target
  let put := s.tdbPut type
  let s := put.2
  ({ lookup := s.transaction.lookups.fresh
     target := target
     tid := put.1.2
     nodes := compactTriples v list },
    { s with transaction := tdbLinkLdb s.transaction put.1.1 (ldbInit target query) })

/-- The common body of `p2p_cron_lookup` and `r_lookup_remote`, without an
interruption.  Replies are handled by the thread that calls `p2p_cron_lookup`, and so
not in its loop.  That none is handled in the loop of `r_lookup_remote` either, which
another thread runs without the mutex, is an assumption; `LookupThreads` does
without it. -/
def startLookup (conf : Conf) (s : Main v) (target : NodeId) (type : TidType)
    (query : Option (Ip v × DnsMsg)) : Main v :=
  let (loop, s) := beginLookup s target type query
  loop.nodes.foldl (lookupQuery conf loop.lookup loop.tid loop.target) s

/-- `p2p_cron_lookup` -/
def p2pCronLookup (conf : Conf) (s : Main v) (target : NodeId) (type : TidType) : Main v :=
  startLookup conf s target type none

/-- One round of the loop in `p2p_cron_announce`. -/
def announceTo (conf : Conf) (target : NodeId) (s : Main v) (n : NodeL v) : Main v :=
  let put := s.tdbPut .announceEngage
  sendAnnounceRequest conf put.2 n.cAddr put.1.2 target n.token

/-- `p2p_cron_announce`: the nearest eight nodes that have sent a token. -/
def p2pCronAnnounce (conf : Conf) (s : Main v) (ti : Ref) : Main v :=
  match s.lookupOf ti with
  | none => s
  | some (_, lookup) =>
      ((lookup.nodes.objects.filter fun n => n.token ≠ []).take 8).foldl
        (announceTo conf lookup.target) s

/-- `list_next` -/
def nextItem (list : List Ref) (r : Ref) : Option Ref :=
  (list.dropWhile (· ≠ r)).tail.head?

/-- The body of the loop in `tdb_expire`. -/
def tdbExpireItem (conf : Conf) (s : Main v) (ti : Ref) : Main v :=
  match s.transaction.tids.heap.get ti with
  | none => s
  | some tid =>
      if s.now > tid.time then
        let s := if tid.type = .announceStart then p2pCronAnnounce conf s ti else s
        { s with transaction := tdbDel s.transaction ti }
      else s

/-- The loop of `tdb_expire` from an item on.  The next item is looked up
before the current one is dealt with. -/
def tdbExpireLoop (conf : Conf) : Nat → Main v → Option Ref → Except Fault (Main v)
  | _, s, none => .ok s
  | 0, _, some _ => .error .rounds
  | rounds + 1, s, some ti =>
      let next := nextItem s.transaction.tids.list ti
      tdbExpireLoop conf rounds (tdbExpireItem conf s ti) next

/-- `tdb_expire`.  An expired transaction announces to at most eight nodes, and
the transactions of these announces have not expired: nine rounds for each item
are enough. -/
def tdbExpire (conf : Conf) (s : Main v) : Except Fault (Main v) :=
  tdbExpireLoop conf (9 * s.transaction.tids.list.length) s
    s.transaction.tids.list.head?

/-- The body of the loop: the item has not expired, or it is deleted, after an
announce if it started one. -/
theorem tdbExpireItem_cases (conf : Conf) (s : Main v) (ti : Ref) :
    tdbExpireItem conf s ti = s ∨
      ∃ tid s₁, s.transaction.tids.heap.get ti = some tid ∧ tid.time < s.now ∧
        (tid.type = .announceStart ∧ s₁ = p2pCronAnnounce conf s ti ∨
          tid.type ≠ .announceStart ∧ s₁ = s) ∧
        tdbExpireItem conf s ti = { s₁ with transaction := tdbDel s₁.transaction ti } := by
  rw [tdbExpireItem]
  split
  · exact .inl rfl
  rename_i tid htid
  split
  · rename_i hexpired
    refine .inr ⟨tid, _, htid, hexpired, ?_, rfl⟩
    split
    · rename_i htype
      exact .inl ⟨htype, rfl⟩
    · rename_i htype
      exact .inr ⟨htype, rfl⟩
  · exact .inl rfl

/-- What holds for the body holds for the loop. -/
theorem tdbExpireLoop_rel
    {conf : Conf} {r : Main v → Main v → Prop} (hrefl : ∀ s, r s s)
    (htrans : ∀ {s s' s''}, r s s' → r s' s'' → r s s'')
    (hitem : ∀ s ti, r s (tdbExpireItem conf s ti))
    {rounds : Nat} {s s' : Main v} {item : Option Ref}
    (h : tdbExpireLoop conf rounds s item = .ok s') :
    r s s' := by
  induction rounds generalizing s item with
  | zero =>
      cases item with
      | none =>
          cases h
          exact hrefl _
      | some ti =>
          cases h
  | succ rounds ih =>
      cases item with
      | none =>
          cases h
          exact hrefl _
      | some ti =>
          exact htrans (hitem s ti) (ih h)

/-- `nbhd_pinged` -/
def Main.nbhdPinged (s : Main v) (id : NodeId) : Main v :=
  if hashExists s.nbhd.hash id.bytes then
    let time := timeAdd5MinApprox s.now s.random
    { s with nbhd := Torrentkino.nbhdPinged s.nbhd id time.1, random := time.2 }
  else s

/-- The body of the loops in `p2p_cron_ping`, for the node with number `j` of
its bucket. -/
def cronPingNode (conf : Conf) (s : Main v) (node : Ref × Nat) : Main v :=
  match s.nbhd.heap.get node.1 with
  | none => s
  | some n =>
      if s.now > n.timePing then
        if node.2 < 8 then
          let put := s.tdbPut .ping
          (sendPing conf put.2 n.cAddr put.1.2).nbhdPinged n.id
        else s.nbhdPinged n.id
      else s

/-- `p2p_cron_ping` -/
def p2pCronPing (conf : Conf) (s : Main v) : Main v :=
  (s.nbhd.bucket.flatMap fun b => b.nodes.zipIdx).foldl (cronPingNode conf) s

/-- The body of the loop in `p2p_cron_find`. -/
def cronFindNode (conf : Conf) (target : NodeId) (s : Main v) (r : Ref) : Main v :=
  match s.nbhd.heap.get r with
  | none => s
  | some n =>
      if s.now > n.timeFind then
        let put := s.tdbPut .findNode
        let s := sendFindNodeRequest conf put.2 n.cAddr target put.1.2
        let time := timeAdd5MinApprox s.now s.random
        { s with
          nbhd := { s.nbhd with
            heap := s.nbhd.heap.modify r fun n => { n with timeFind := time.1 } }
          random := time.2 }
      else s

/-- `p2p_cron_find` -/
def p2pCronFind (conf : Conf) (s : Main v) (target : NodeId) : Main v :=
  match (bcktFindAnyMatch s.nbhd.bucket target).bind (s.nbhd.bucket[·]?) with
  | none => s
  | some b => (b.nodes.take 8).foldl (cronFindNode conf target) s

/-- `p2p_cron_find_random` -/
def p2pCronFindRandom (conf : Conf) (s : Main v) : Main v :=
  let id := randUrandom s.random sha1Size
  p2pCronFind conf { s with random := id.2 } ⟨id.1, copy_length 0 sha1Size⟩

/-- The loop of `p2p_cron_lookup_all` over the hostnames; the first list has
those that were dealt with. -/
def cronLookupAll (conf : Conf) : List Identity → List Identity → Main v → Main v
  | done, [], s => { s with identity := done }
  | done, identity :: rest, s =>
      if s.now > identity.timeAnnounceHost then
        let s := p2pCronLookup conf s identity.hostId .announceStart
        let time := timeAdd5MinApprox s.now s.random
        cronLookupAll conf (done ++ [{ identity with timeAnnounceHost := time.1 }]) rest
          { s with random := time.2 }
      else cronLookupAll conf (done ++ [identity]) rest s

/-- `p2p_cron_lookup_all` -/
def p2pCronLookupAll (conf : Conf) (s : Main v) : Main v :=
  cronLookupAll conf [] s.identity s

/-- The body of the loop in `cache_renew`. -/
def cacheRenewTarget (conf : Conf) (s : Main v) (r : Ref) : Main v :=
  match s.cache.targets.heap.get r with
  | none => s
  | some t =>
      if s.now > t.refresh then
        let s := p2pCronLookup conf s t.target .getPeers
        let time := timeAdd5MinApprox s.now s.random
        { s with
          cache :=
            { targets := s.cache.targets.modify r
                (fun t => { t with refresh := time.1 }) fun _ _ => rfl }
          random := time.2 }
      else s

/-- `cache_renew` -/
def cacheRenew (conf : Conf) (s : Main v) : Main v :=
  s.cache.targets.list.foldl (cacheRenewTarget conf) s

/-- The body of the loop in `p2p_bootstrap_this`. -/
def bootstrapPing (conf : Conf) (s : Main v) (sa : Ip v) : Main v :=
  let put := s.tdbPut (if conf.multicast then .pingMulticast else .ping)
  sendPing conf put.2 sa put.1.2

/-- `p2p_bootstrap`, with the addresses that `getaddrinfo` finds for each
bootstrap node, of which `P2P_MAX_BOOTSTRAP_NODES` are taken. -/
def p2pBootstrap (conf : Conf) (resolved : List (List (Ip v))) (s : Main v) : Main v :=
  if !nbhdIsEmpty s.nbhd then s
  else (resolved.flatMap (·.take 20)).foldl (bootstrapPing conf) s

/-- A periodic task: it runs when its time has come, and gets a new time. -/
def periodic (due : P2p → Int) (setDue : P2p → Int → P2p)
    (again : Int → Random → Int × Random) (task : Main v → Except Fault (Main v))
    (s : Main v) : Except Fault (Main v) :=
  if s.now > due s.p2p then
    (task s).map fun s =>
      let time := again s.now s.random
      { s with p2p := setDue s.p2p time.1, random := time.2 }
  else .ok s

/-- The task was not due, or it ran and got a new time. -/
theorem periodic_cases
    {due : P2p → Int} {setDue : P2p → Int → P2p} {again : Int → Random → Int × Random}
    {task : Main v → Except Fault (Main v)} {s s' : Main v}
    (h : periodic due setDue again task s = .ok s') :
    s.now ≤ due s.p2p ∧ s' = s ∨
      due s.p2p < s.now ∧ ∃ s₁, task s = .ok s₁ ∧
        s' = { s₁ with
          p2p := setDue s₁.p2p (again s₁.now s₁.random).1
          random := (again s₁.now s₁.random).2 } := by
  rw [periodic] at h
  split at h
  · rename_i hdue
    obtain ⟨s₁, hrun, rfl⟩ := map_eq_ok h
    exact .inr ⟨hdue, s₁, hrun, rfl⟩
  · rename_i hdue
    cases h
    exact .inl ⟨not_lt.mp hdue, rfl⟩

/-- The objects that `p2p_cron` expires. -/
def cronExpire (conf : Conf) (s : Main v) : Except Fault (Main v) :=
  (tdbExpire conf s).map fun s =>
    { s with
      nbhd := nbhdExpire s.nbhd
      value := valExpire s.now s.value
      token := tknExpire s.now s.token
      cache := cacheExpire s.now s.cache }

/-- `tkn_put` -/
def cronToken (s : Main v) : Except Fault (Main v) :=
  let put := tknPut s.now s.token s.random
  .ok { s with token := put.1, random := put.2 }

/-- `nbhd_split` -/
def cronSplit (conf : Conf) (s : Main v) : Except Fault (Main v) :=
  match nbhdSplit s.nbhd conf.nodeId with
  | none => .error .rounds
  | some nbhd => .ok { s with nbhd := nbhd }

/-- The tasks of `p2p_cron` for a node that knows others, in their order. -/
def cronTasks (conf : Conf) : List (Main v → Except Fault (Main v)) :=
  [periodic (·.timeToken) (fun p t => { p with timeToken := t }) timeAdd5MinApprox cronToken,
    periodic (·.timeExpire) (fun p t => { p with timeExpire := t }) timeAdd1MinApprox
      (cronExpire conf),
    periodic (·.timeSplit) (fun p t => { p with timeSplit := t }) timeAdd5SecApprox
      (cronSplit conf),
    periodic (·.timeFind) (fun p t => { p with timeFind := t }) timeAdd5SecApprox
      fun s => .ok (p2pCronFind conf s conf.nodeId),
    periodic (·.timeMaintainance) (fun p t => { p with timeMaintainance := t })
      timeAdd5SecApprox fun s => .ok (p2pCronFindRandom conf s),
    periodic (·.timeAnnounceHost) (fun p t => { p with timeAnnounceHost := t })
      timeAdd5SecApprox fun s => .ok (p2pCronLookupAll conf s),
    periodic (·.timePing) (fun p t => { p with timePing := t }) timeAdd5SecApprox
      fun s => .ok (p2pCronPing conf s),
    periodic (·.timeCache) (fun p t => { p with timeCache := t }) timeAdd5SecApprox
      fun s => .ok (cacheRenew conf s)]

/-- `p2p_cron`, at the clock reading `now`. -/
def p2pCron (conf : Conf) (now : Int) (resolved : List (List (Ip v))) (s : Main v) :
    Except Fault (Main v) :=
  let s := { s with p2p := { s.p2p with timeNow := now } }
  if nbhdIsEmpty s.nbhd then
    periodic (·.timeRestart) (fun p t => { p with timeRestart := t }) timeAdd1MinApprox
      (fun s => .ok (p2pBootstrap conf resolved s)) s
  else
    (cronTasks conf).foldlM (fun s task => task s) s

end Cron
end Torrentkino
