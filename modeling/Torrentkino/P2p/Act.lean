import Torrentkino.P2p.Daemon
import Torrentkino.P2p.Krpc
import Torrentkino.P2p.NeighbourhoodInv

/-!
# What an event consists of

The handlers and the periodic tasks change the state of the daemon in a few
ways only.  `Act` lists them: an operation on the routing table, a transaction
that is put or deleted, a lookup that starts, a `get_peers` reply that reaches
its lookup, a datagram that leaves, a name that is decoded.  Everything else
happens in the parts of the state that have nothing to do with these.

**Results.**
* `acts_daemonStep`, `acts_run`: every event, and so every run of the daemon, is a
  sequence of acts.
* `acts_p2pParse` and `acts_p2pCron`: only a DNS query is answered directly or
  starts a lookup with an initiator.
* `lookupsEvolve_acts`: a lookup changes through three functions only.
-/

namespace Torrentkino

open Memory Simulation

/-- The dictionary is that of a `get_peers` query. -/
def AsksForPeers (dict : Ben) : Prop :=
  benStrS (benDictSearchStr (some dict) "q") = some (cstr "get_peers")

theorem asksForPeers_queryDict_iff (q : String) (arg : List (Bytes × Ben)) (tid : Bytes) :
    AsksForPeers (queryDict q arg tid) ↔ cstr q = cstr "get_peers" := by
  rw [AsksForPeers, search_queryDict_q]
  simp [benStrS]

theorem not_asksForPeers_replyDict (arg : List (Bytes × Ben)) (tid : Bytes) :
    ¬ AsksForPeers (replyDict arg tid) := by
  rw [AsksForPeers, replyDict]
  simp (disch := decide) [benDictSearchStr_entry_of_ne, benStrS]

/-- The transaction owns a lookup. -/
def TidType.HasLookup (type : TidType) : Prop :=
  type = .getPeers ∨ type = .announceStart

theorem TidType.hasLookup_getPeers : TidType.getPeers.HasLookup :=
  .inl rfl

/-- An elementary change of the state. -/
inductive Act (v : Build) where
  /-- The next event; the datagrams of the last one are forgotten. -/
  | event
  /-- The clock, the timers, the stores, the tokens and the random source, that
  is everything but what the other acts are about. -/
  | store (m : Main v)
  /-- `p_decode_domain` writes into the name buffer. -/
  | names (names : Bytes)
  | nbhd (op : NbhdOp v)
  /-- `p2p_cron_find` notes when a node is due again. -/
  | found (r : Ref) (time : Int)
  | tdbPut (type : TidType) (other : ¬ type.HasLookup)
  | tdbDel (ti : Ref)
  /-- `p2p_cron_lookup` and `r_lookup_remote` -/
  | lookup (target : NodeId) (type : TidType) (owner : type.HasLookup)
      (query : Option (Ip v × DnsMsg))
  /-- `p2p_get_peers_get_nodes` -/
  | nodes (id : NodeId) (ti : Ref) (tid token nodes : Bytes) (sa : Ip v)
  /-- `p2p_get_peers_get_values` -/
  | values (id : NodeId) (ti : Ref) (token : Bytes) (values : List Ben) (sa : Ip v)
  /-- A message that is not a `get_peers` query. -/
  | send (sa : Ip v) (dict : Ben) (other : ¬ AsksForPeers dict)
  /-- A response to the DNS query of this event. -/
  | respond (d : Datagram v)

section Act

variable {v : Build} {conf : Conf} {s s' : Main v}

/-- The state after an act. -/
def actStep (conf : Conf) (s : Main v) : Act v → Except Fault (Main v)
  | .event => .ok { s with sent := [] }
  | .store m =>
      .ok { m with
        nbhd := s.nbhd
        transaction := s.transaction
        names := s.names
        sent := s.sent }
  | .names names => .ok { s with names := names }
  | .nbhd op =>
      match nbhdStep conf.nodeId s.nbhd op with
      | .error _ => .error .rounds
      | .ok nbhd => .ok { s with nbhd := nbhd }
  | .found r time =>
      .ok { s with
        nbhd := { s.nbhd with heap := s.nbhd.heap.modify r fun n => { n with timeFind := time } } }
  | .tdbPut type _ => .ok (s.tdbPut type).2
  | .tdbDel ti => .ok { s with transaction := tdbDel s.transaction ti }
  | .lookup target type _ query => .ok (startLookup conf s target type query)
  | .nodes id ti tid token nodes sa =>
      .ok (p2pGetPeersGetNodes conf s id ti tid token nodes sa)
  | .values id ti token values sa => p2pGetPeersGetValues s id ti token values sa
  | .send sa dict _ => .ok (s.send (sendUdp sa dict))
  | .respond d => .ok { s with sent := s.sent ++ [.dns d none] }

/-- Acts that have nothing to do with DNS queries. -/
def Act.Inner : Act v → Prop
  | .event | .names _ | .respond _ => False
  | .lookup _ _ _ query => query = none
  | _ => True

/-- Acts that leave the queries of lookups alone. -/
def Act.Silent : Act v → Prop
  | .values _ _ _ _ _ => False
  | a => a.Inner

/-- Acts of the handlers and tasks that delete no transaction, leave the clock,
the timers and the tokens alone and have nothing to do with DNS queries.
Addresses enter the routing table with a node that is put there, and `A` holds
for them. -/
def Act.Calm (A : Ip v → Prop) (s : Main v) : Act v → Prop
  | .event | .names _ | .respond _ | .nodes _ _ _ _ _ _ | .values _ _ _ _ _ | .tdbDel _ => False
  | .store m => m.p2p = s.p2p ∧ m.token = s.token
  | .nbhd (.put _ sa) => A sa
  | .nbhd (.ponged _ _ _) => False
  | .lookup _ _ _ query => query = none
  | _ => True

/-- Acts that delete no transaction and leave the clock, the timers and the tokens
alone. -/
def Act.Steady (s : Main v) : Act v → Prop
  | .store m => m.p2p = s.p2p ∧ m.token = s.token
  | .tdbDel _ => False
  | _ => True

/-- Acts of `p2p_cron`: no address enters the routing table, and a transaction that
is deleted has expired. -/
def Act.Tick (s : Main v) : Act v → Prop
  | .store m => m.now = s.now
  | .tdbDel ti => ∃ tid, s.transaction.tids.heap.get ti = some tid ∧ tid.time < s.now
  | a => a.Calm (fun _ => False) s

/-- Acts of `r_parse`: it does not touch the routing table. -/
def Act.Resolves (s : Main v) : Act v → Prop
  | .store m => m.p2p = s.p2p ∧ m.token = s.token
  | .names _ | .respond _ | .lookup _ _ _ _ => True
  | _ => False

/-- Silent acts lead from one state to the other. -/
abbrev SilentActs (conf : Conf) (s s' : Main v) : Prop :=
  Reaches (actStep conf) Act.Silent s s'

/-- Inner acts lead from one state to the other. -/
abbrev InnerActs (conf : Conf) (s s' : Main v) : Prop :=
  Reaches (actStep conf) Act.Inner s s'

/-- Calm acts lead from one state to the other. -/
abbrev CalmActs (conf : Conf) (A : Ip v → Prop) (s s' : Main v) : Prop :=
  Leads (actStep conf) (Act.Calm A) s s'

/-- Steady acts lead from one state to the other. -/
abbrev SteadyActs (conf : Conf) (s s' : Main v) : Prop :=
  Leads (actStep conf) Act.Steady s s'

/-- Acts of `p2p_cron` lead from one state to the other. -/
abbrev TickActs (conf : Conf) (s s' : Main v) : Prop :=
  Leads (actStep conf) Act.Tick s s'

/-- Acts of `r_parse` lead from one state to the other. -/
abbrev ResolvesActs (conf : Conf) (s s' : Main v) : Prop :=
  Leads (actStep conf) Act.Resolves s s'

theorem Act.Silent.inner {a : Act v} (h : a.Silent) : a.Inner := by
  cases a with
  | values id ti token values sa =>
      cases h
  | _ =>
      exact h

theorem SilentActs.inner (h : SilentActs conf s s') : InnerActs conf s s' :=
  h.mono fun _ => Act.Silent.inner

variable {A : Ip v → Prop}

theorem Act.Calm.silent {a : Act v} (h : a.Calm A s) : a.Silent := by
  cases a with
  | event | names names | respond d | nodes id ti tid token nodes sa
  | values id ti token values sa =>
      cases h
  | lookup target type owner query =>
      exact h
  | _ =>
      trivial

theorem Act.Calm.steady {a : Act v} (h : a.Calm A s) : a.Steady s := by
  cases a with
  | store m | tdbDel ti =>
      exact h
  | _ =>
      trivial

theorem CalmActs.steady (h : CalmActs conf A s s') : SteadyActs conf s s' :=
  Leads.mono h fun _ _ => Act.Calm.steady

theorem CalmActs.silent (h : CalmActs conf A s s') : SilentActs conf s s' :=
  Leads.reaches h fun _ _ => Act.Calm.silent

theorem Act.Calm.tick {a : Act v} (h : a.Calm (fun _ => False) s) : a.Tick s := by
  cases a with
  | store m =>
      exact congrArg P2p.timeNow h.1
  | tdbDel ti =>
      cases h
  | _ =>
      exact h

theorem CalmActs.tick (h : CalmActs conf (fun _ => False) s s') : TickActs conf s s' :=
  Leads.mono h fun _ _ => Act.Calm.tick

theorem Act.Tick.cases {a : Act v} (h : a.Tick s) :
    (∃ m, a = .store m ∧ m.now = s.now) ∨
      (∃ ti tid, a = .tdbDel ti ∧ s.transaction.tids.heap.get ti = some tid ∧ tid.time < s.now) ∨
      a.Calm (fun _ => False) s := by
  cases a with
  | store m =>
      exact .inl ⟨m, rfl, h⟩
  | tdbDel ti =>
      obtain ⟨tid, htid, hexpired⟩ := h
      exact .inr (.inl ⟨ti, tid, rfl, htid, hexpired⟩)
  | _ =>
      exact .inr (.inr h)

theorem Act.Tick.silent {a : Act v} (h : a.Tick s) : a.Silent := by
  rcases h.cases with ⟨m, rfl, -⟩ | ⟨ti, tid, rfl, -⟩ | hcalm
  · trivial
  · trivial
  · exact hcalm.silent

theorem TickActs.silent (h : TickActs conf s s') : SilentActs conf s s' :=
  Leads.reaches h fun _ _ => Act.Tick.silent

theorem Act.Resolves.steady {a : Act v} (h : a.Resolves s) : a.Steady s := by
  cases a with
  | store m | tdbDel ti =>
      exact h
  | _ =>
      trivial

theorem ResolvesActs.steady (h : ResolvesActs conf s s') : SteadyActs conf s s' :=
  Leads.mono h fun _ _ => Act.Resolves.steady

/-! ## Elementary steps -/

/-- Only what the acts are not about has changed. -/
theorem acts_store
    (hnbhd : s'.nbhd = s.nbhd) (htransaction : s'.transaction = s.transaction)
    (hnames : s'.names = s.names) (hsent : s'.sent = s.sent) :
    SilentActs conf s s' := by
  refine .single (.store s') trivial ?_
  rw [actStep, ← hnbhd, ← htransaction, ← hnames, ← hsent]

/-- The same, with the clock, the timers and the tokens as they were. -/
theorem calm_store
    (hnbhd : s'.nbhd = s.nbhd) (htransaction : s'.transaction = s.transaction)
    (hnames : s'.names = s.names) (hsent : s'.sent = s.sent)
    (hp2p : s'.p2p = s.p2p) (htoken : s'.token = s.token) :
    CalmActs conf A s s' := by
  refine .single (.store s') ⟨hp2p, htoken⟩ ?_
  rw [actStep, ← hnbhd, ← htransaction, ← hnames, ← hsent]

theorem acts_nbhd (op : NbhdOp v) {nbhd : Nbhd v} (h : nbhdStep conf.nodeId s.nbhd op = .ok nbhd) :
    SilentActs conf s { s with nbhd := nbhd } := by
  refine .single (.nbhd op) trivial ?_
  rw [actStep, h]

theorem calm_nbhd
    (op : NbhdOp v) {nbhd : Nbhd v} (h : nbhdStep conf.nodeId s.nbhd op = .ok nbhd)
    (hop : (Act.nbhd op).Calm A s) :
    CalmActs conf A s { s with nbhd := nbhd } := by
  refine .single (.nbhd op) hop ?_
  rw [actStep, h]

theorem calm_nbhdPut (conf : Conf) (s : Main v) (id : NodeId) {sa : Ip v} (hsa : A sa) :
    CalmActs conf A s (s.nbhdPut conf id sa) :=
  calm_nbhd (.put id sa) rfl hsa

theorem acts_nbhdPut (conf : Conf) (s : Main v) (id : NodeId) (sa : Ip v) :
    SilentActs conf s (s.nbhdPut conf id sa) :=
  acts_nbhd (.put id sa) rfl

theorem calm_tdbPut (s : Main v) (type : TidType) (h : ¬ type.HasLookup) :
    CalmActs conf A s (s.tdbPut type).2 :=
  .single (.tdbPut type h) trivial rfl

theorem acts_tdbDel (s : Main v) (ti : Ref) :
    SilentActs conf s { s with transaction := tdbDel s.transaction ti } :=
  .single (.tdbDel ti) trivial rfl

theorem calm_send (s : Main v) (sa : Ip v) {dict : Ben} (h : ¬ AsksForPeers dict) :
    CalmActs conf A s (s.send (sendUdp sa dict)) :=
  .single (.send sa dict h) trivial rfl

theorem calm_sendPing (s : Main v) (sa : Ip v) (tid : Bytes) :
    CalmActs conf A s (sendPing conf s sa tid) :=
  calm_send s sa (mt (asksForPeers_queryDict_iff _ _ _).mp (by decide))

theorem calm_sendFindNodeRequest (s : Main v) (sa : Ip v) (target : NodeId) (tid : Bytes) :
    CalmActs conf A s (sendFindNodeRequest conf s sa target tid) :=
  calm_send s sa (mt (asksForPeers_queryDict_iff _ _ _).mp (by decide))

theorem calm_sendAnnounceRequest
    (s : Main v) (sa : Ip v) (tid : Bytes) (target : NodeId) (token : Bytes) :
    CalmActs conf A s (sendAnnounceRequest conf s sa tid target token) :=
  calm_send s sa (mt (asksForPeers_queryDict_iff _ _ _).mp (by decide))

theorem calm_p2pCronLookup (s : Main v) (target : NodeId) {type : TidType}
    (h : type.HasLookup) :
    CalmActs conf A s (p2pCronLookup conf s target type) :=
  .single (.lookup target type h none) rfl rfl

/-! ## Queries and replies -/

theorem calm_handleRequest
    {id : NodeId} {tid : Bytes} {sa : Ip v} {r : Request}
    (h : handleRequest conf s id tid sa r = .ok s') :
    CalmActs conf A s s' := by
  cases r with
  | ping =>
      cases h
      exact calm_send _ _ (not_asksForPeers_replyDict _ _)
  | findNode target =>
      simp only [handleRequest, Except.ok.injEq, p2pFindNodeGetRequest] at h
      split at h
      · cases h
        exact calm_send _ _ (not_asksForPeers_replyDict _ _)
      · cases h
        exact .refl _
  | getPeers infoHash =>
      simp only [handleRequest, p2pGetPeersGetRequest] at h
      split at h
      · rw [sendGetPeersValues] at h
        split at h
        · cases h
        · cases h
          exact calm_send _ _ (not_asksForPeers_replyDict _ _)
      split at h
      · rw [sendGetPeersNodes] at h
        split at h
        · cases h
        · cases h
          exact calm_send _ _ (not_asksForPeers_replyDict _ _)
      · cases h
        exact .refl _
  | announce infoHash token port =>
      cases h
      refine Leads.trans ?_ (calm_send _ _ (not_asksForPeers_replyDict _ _))
      exact calm_store rfl rfl rfl rfl rfl rfl

theorem calm_p2pRequest
    {behind : Bytes} {packet : Ben} {sa : Ip v} (hsa : A sa)
    (h : p2pRequest conf behind s packet sa = .ok s') :
    CalmActs conf A s s' := by
  rw [p2pRequest] at h
  split at h
  · cases h
    exact .refl _
  · rename_i head _
    have hput := calm_nbhdPut conf s head.id hsa
    dsimp only at h
    split at h
    · cases h
      exact hput
    · exact hput.trans (calm_handleRequest h)

theorem acts_p2pRequest
    {behind : Bytes} {packet : Ben} {sa : Ip v}
    (h : p2pRequest conf behind s packet sa = .ok s') :
    SilentActs conf s s' :=
  (calm_p2pRequest (A := fun _ => True) trivial h).silent

theorem acts_p2pPong (conf : Conf) (s : Main v) (id : NodeId) (sa : Ip v) :
    SilentActs conf s (p2pPong s id sa) := by
  rw [p2pPong]
  split
  · refine Reaches.trans (acts_nbhd (.ponged id sa (timeAdd5MinApprox s.now s.random).1) rfl) ?_
    exact acts_store rfl rfl rfl rfl
  · exact .refl _

theorem calm_p2pFindNodeGetReply
    (hA : ∀ sa, ipIsLinklocal sa = false → A sa) (conf : Conf) (s : Main v) (nodes : Bytes) :
    CalmActs conf A s (p2pFindNodeGetReply conf s nodes) := by
  refine Leads.foldl (fun s node => ?_) _ _
  rw [findNodeStore]
  split
  · exact .refl _
  split
  · exact .refl _
  · rename_i hlocal
    exact calm_nbhdPut conf s _ (hA _ (Bool.eq_false_iff.mpr hlocal))

theorem acts_p2pFindNodeGetReply (conf : Conf) (s : Main v) (nodes : Bytes) :
    SilentActs conf s (p2pFindNodeGetReply conf s nodes) :=
  (calm_p2pFindNodeGetReply (A := fun _ => True) (fun _ _ => trivial) conf s nodes).silent

theorem acts_handleReply
    {id : NodeId} {ti : Ref} {tid : Bytes} {sa : Ip v} {r : Reply}
    (h : handleReply conf s id ti tid sa r = .ok s') :
    InnerActs conf s s' := by
  cases r with
  | pong =>
      cases h
      exact (acts_p2pPong conf s id sa).inner
  | findNode nodes =>
      cases h
      exact (acts_p2pFindNodeGetReply conf s nodes).inner
  | getPeersNodes token nodes =>
      cases h
      exact .single (.nodes id ti tid token nodes sa) trivial rfl
  | getPeersValues token values =>
      exact .single (.values id ti token values sa) trivial h
  | announce =>
      cases h
      exact .refl _

theorem steady_handleReply
    {id : NodeId} {ti : Ref} {tid : Bytes} {sa : Ip v} {r : Reply}
    (h : handleReply conf s id ti tid sa r = .ok s') :
    SteadyActs conf s s' := by
  cases r with
  | pong =>
      cases h
      rw [p2pPong]
      split
      · refine Leads.trans
          (.single (.nbhd (.ponged id sa (timeAdd5MinApprox s.now s.random).1)) trivial rfl) ?_
        refine CalmActs.steady (A := fun _ => True) ?_
        exact calm_store rfl rfl rfl rfl rfl rfl
      · exact .refl _
  | findNode nodes =>
      cases h
      exact (calm_p2pFindNodeGetReply (A := fun _ => True) (fun _ _ => trivial) conf s nodes).steady
  | getPeersNodes token nodes =>
      cases h
      exact .single (.nodes id ti tid token nodes sa) trivial rfl
  | getPeersValues token values =>
      exact .single (.values id ti token values sa) trivial h
  | announce =>
      cases h
      exact .refl _

theorem acts_replyCleanup (conf : Conf) (type : TidType) (ti : Ref) (s : Main v) :
    SilentActs conf s (replyCleanup type ti s) := by
  cases type with
  | ping | findNode | announceEngage =>
      exact acts_tdbDel s ti
  | pingMulticast | getPeers | announceStart =>
      exact .refl _

theorem acts_p2pReply
    {packet : Ben} {sa : Ip v} (h : p2pReply conf s packet sa = .ok s') :
    InnerActs conf s s' := by
  rcases p2pReply_cases h with
    ⟨rfl, -⟩ | ⟨head, -, ⟨rfl, -⟩ | ⟨ti, type, s₁, -, -, hhandled, rfl⟩⟩
  · exact .refl _
  · exact (acts_nbhdPut conf s head.id sa).inner
  refine Reaches.trans ?_ (acts_replyCleanup conf type ti s₁).inner
  rcases hhandled with rfl | ⟨reply, -, hrun⟩
  · exact (acts_nbhdPut conf s head.id sa).inner
  · exact (acts_nbhdPut conf s head.id sa).inner.trans (acts_handleReply hrun)

/-- A datagram on the peer-to-peer socket. -/
theorem acts_p2pParse
    {behind : Bytes} {now : Int} {bencode : Raw} {sa : Ip v}
    (h : p2pParse conf behind now s bencode sa = .ok s') :
    InnerActs conf s s' := by
  have hclock : InnerActs conf s { s with p2p := { s.p2p with timeNow := now } } :=
    SilentActs.inner (acts_store rfl rfl rfl rfl)
  rcases p2pParse_cases h with rfl | ⟨-, -, packet, ⟨-, hrun⟩ | ⟨-, hrun⟩⟩
  · exact hclock
  · exact hclock.trans (acts_p2pRequest hrun).inner
  · exact hclock.trans (acts_p2pReply hrun)

/-! ## Periodic tasks -/

theorem calm_p2pCronAnnounce (s : Main v) (ti : Ref) :
    CalmActs conf A s (p2pCronAnnounce conf s ti) := by
  rw [p2pCronAnnounce]
  split
  · exact .refl _
  · refine Leads.foldl (fun s n => ?_) _ _
    refine Leads.trans (calm_tdbPut s .announceEngage (by simp [TidType.HasLookup])) ?_
    exact calm_sendAnnounceRequest _ _ _ _ _

/-- An announce leaves the transactions that are there alone. -/
theorem get_p2pCronAnnounce
    {ti r : Ref} {tid : Tid} (h : s.transaction.tids.heap.get r = some tid) :
    (p2pCronAnnounce conf s ti).transaction.tids.heap.get r = some tid := by
  rw [p2pCronAnnounce]
  split
  · exact h
  · refine List.foldlRecOn
      (motive := fun s : Main v => s.transaction.tids.heap.get r = some tid) _ _ h ?_
    intro s hs n _
    exact Heap.get_alloc_of_get _ hs

theorem p2pCronAnnounce_now (s : Main v) (ti : Ref) : (p2pCronAnnounce conf s ti).now = s.now := by
  rw [p2pCronAnnounce]
  split
  · rfl
  · exact List.foldlRecOn (motive := fun s' : Main v => s'.now = s.now) _ _ rfl fun _ hs _ _ => hs

theorem tick_tdbExpireItem (s : Main v) (ti : Ref) :
    TickActs conf s (tdbExpireItem conf s ti) := by
  rcases tdbExpireItem_cases conf s ti with heq | ⟨tid, s₁, htid, hexpired, hs₁, heq⟩
  · rw [heq]
    exact .refl _
  rw [heq]
  rcases hs₁ with ⟨-, rfl⟩ | ⟨-, rfl⟩
  · refine Leads.trans (calm_p2pCronAnnounce s ti).tick ?_
    refine .single (.tdbDel ti) ⟨tid, get_p2pCronAnnounce htid, ?_⟩ rfl
    rw [p2pCronAnnounce_now]
    exact hexpired
  · exact .single (.tdbDel ti) ⟨tid, htid, hexpired⟩ rfl

theorem tick_tdbExpireLoop
    {rounds : Nat} {item : Option Ref} (h : tdbExpireLoop conf rounds s item = .ok s') :
    TickActs conf s s' :=
  tdbExpireLoop_rel Leads.refl Leads.trans tick_tdbExpireItem h

theorem calm_nbhdPinged (s : Main v) (id : NodeId) : CalmActs conf A s (s.nbhdPinged id) := by
  rw [Main.nbhdPinged]
  split
  · refine Leads.trans
      (calm_nbhd (.pinged id (timeAdd5MinApprox s.now s.random).1) rfl trivial) ?_
    exact calm_store rfl rfl rfl rfl rfl rfl
  · exact .refl _

theorem calm_p2pCronPing (s : Main v) : CalmActs conf A s (p2pCronPing conf s) := by
  refine Leads.foldl (fun s node => ?_) _ _
  rw [cronPingNode]
  split
  · exact .refl _
  split
  · split
    · refine Leads.trans ?_ (calm_nbhdPinged _ _)
      refine Leads.trans (calm_tdbPut s .ping (by simp [TidType.HasLookup])) ?_
      exact calm_sendPing _ _ _
    · exact calm_nbhdPinged _ _
  · exact .refl _

theorem calm_p2pCronFind (s : Main v) (target : NodeId) :
    CalmActs conf A s (p2pCronFind conf s target) := by
  rw [p2pCronFind]
  split
  · exact .refl _
  refine Leads.foldl (fun s r => ?_) _ _
  rw [cronFindNode]
  split
  · exact .refl _
  rename_i n _
  split
  · have hsent : CalmActs conf A s (sendFindNodeRequest conf (s.tdbPut .findNode).2 n.cAddr
        target (s.tdbPut .findNode).1.2) :=
      Leads.trans (calm_tdbPut s .findNode (by simp [TidType.HasLookup]))
        (calm_sendFindNodeRequest _ _ _ _)
    refine hsent.trans ?_
    dsimp only
    generalize sendFindNodeRequest conf (s.tdbPut .findNode).2 n.cAddr target
      (s.tdbPut .findNode).1.2 = s₁
    refine Leads.trans
      (.single (.found r (timeAdd5MinApprox s₁.now s₁.random).1) trivial rfl) ?_
    exact calm_store rfl rfl rfl rfl rfl rfl
  · exact .refl _

theorem calm_p2pCronFindRandom (s : Main v) :
    CalmActs conf A s (p2pCronFindRandom conf s) := by
  refine Leads.trans ?_ (calm_p2pCronFind _ _)
  exact calm_store rfl rfl rfl rfl rfl rfl

theorem calm_cronLookupAll (done rest : List Identity) (s : Main v) :
    CalmActs conf A s (cronLookupAll conf done rest s) := by
  induction rest generalizing done s with
  | nil =>
      exact calm_store rfl rfl rfl rfl rfl rfl
  | cons identity rest ih =>
      rw [cronLookupAll]
      split
      · refine Leads.trans ?_ (ih _ _)
        refine (calm_p2pCronLookup s identity.hostId (.inr rfl)).trans ?_
        exact calm_store rfl rfl rfl rfl rfl rfl
      · exact ih _ _

theorem calm_cacheRenew (s : Main v) : CalmActs conf A s (cacheRenew conf s) := by
  refine Leads.foldl (fun s r => ?_) _ _
  rw [cacheRenewTarget]
  split
  · exact .refl _
  split
  · exact (calm_p2pCronLookup s _ (.inl rfl)).trans (calm_store rfl rfl rfl rfl rfl rfl)
  · exact .refl _

theorem calm_p2pBootstrap (resolved : List (List (Ip v))) (s : Main v) :
    CalmActs conf A s (p2pBootstrap conf resolved s) := by
  rw [p2pBootstrap]
  split
  · exact .refl _
  · refine Leads.foldl (fun s sa => ?_) _ _
    rw [bootstrapPing]
    refine Leads.trans (calm_tdbPut s _ ?_) (calm_sendPing _ _ _)
    split <;> simp [TidType.HasLookup]

theorem calm_cronSplit (h : cronSplit conf s = .ok s') : CalmActs conf A s s' := by
  rw [cronSplit] at h
  split at h
  · cases h
  · rename_i nbhd hsplit
    cases h
    refine calm_nbhd (.split conf.nodeId) ?_ trivial
    rw [nbhdStep, hsplit]

/-- The clock, and when the next token is due and when the next expiry. -/
structure SameTimers (p p' : P2p) : Prop where
  now : p'.timeNow = p.timeNow
  token : p'.timeToken = p.timeToken
  expire : p'.timeExpire = p.timeExpire

/-- A periodic task that is calm was not due, or it ran and got a new time. -/
theorem calm_periodic
    {due : P2p → Int} {setDue : P2p → Int → P2p} {again : Int → Random → Int × Random}
    {task : Main v → Except Fault (Main v)}
    (h : periodic due setDue again task s = .ok s')
    (htask : ∀ {s s'}, task s = .ok s' → CalmActs conf A s s')
    (hset : ∀ p t, SameTimers p (setDue p t)) :
    s' = s ∨ ∃ s₁ p rnd, CalmActs conf A s s₁ ∧ SameTimers s₁.p2p p ∧
      s' = { s₁ with p2p := p, random := rnd } := by
  rcases periodic_cases h with ⟨-, rfl⟩ | ⟨-, s₁, hrun, rfl⟩
  · exact .inl rfl
  · exact .inr ⟨s₁, _, _, htask hrun, hset s₁.p2p (again s₁.now s₁.random).1, rfl⟩

/-- The tasks of `p2p_cron` that neither create tokens nor expire anything. -/
def calmTasks (conf : Conf) : List (Main v → Except Fault (Main v)) :=
  (cronTasks conf).drop 2

theorem calmTasks_cases
    {task : Main v → Except Fault (Main v)} (htask : task ∈ calmTasks conf)
    (h : task s = .ok s') :
    s' = s ∨ ∃ s₁ p rnd, CalmActs conf A s s₁ ∧ SameTimers s₁.p2p p ∧
      s' = { s₁ with p2p := p, random := rnd } := by
  simp only [calmTasks, cronTasks, List.drop_succ_cons, List.drop_zero, List.mem_cons,
    List.not_mem_nil, or_false] at htask
  rcases htask with rfl | rfl | rfl | rfl | rfl | rfl
  · exact calm_periodic h calm_cronSplit fun _ _ => ⟨rfl, rfl, rfl⟩
  · refine calm_periodic h (fun {s s'} hrun => ?_) fun _ _ => ⟨rfl, rfl, rfl⟩
    cases hrun
    exact calm_p2pCronFind _ _
  · refine calm_periodic h (fun {s s'} hrun => ?_) fun _ _ => ⟨rfl, rfl, rfl⟩
    cases hrun
    exact calm_p2pCronFindRandom _
  · refine calm_periodic h (fun {s s'} hrun => ?_) fun _ _ => ⟨rfl, rfl, rfl⟩
    cases hrun
    exact calm_cronLookupAll _ _ _
  · refine calm_periodic h (fun {s s'} hrun => ?_) fun _ _ => ⟨rfl, rfl, rfl⟩
    cases hrun
    exact calm_p2pCronPing _
  · refine calm_periodic h (fun {s s'} hrun => ?_) fun _ _ => ⟨rfl, rfl, rfl⟩
    cases hrun
    exact calm_cacheRenew _

theorem tick_store
    (hnbhd : s'.nbhd = s.nbhd) (htransaction : s'.transaction = s.transaction)
    (hnames : s'.names = s.names) (hsent : s'.sent = s.sent) (hnow : s'.now = s.now) :
    TickActs conf s s' := by
  refine .single (.store s') hnow ?_
  rw [actStep, ← hnbhd, ← htransaction, ← hnames, ← hsent]

theorem tick_cronExpire (h : cronExpire conf s = .ok s') : TickActs conf s s' := by
  obtain ⟨s₁, hrun, rfl⟩ := map_eq_ok h
  refine (tick_tdbExpireLoop hrun).trans ?_
  refine Leads.trans (.single (.nbhd .expire) trivial rfl) ?_
  exact tick_store rfl rfl rfl rfl rfl

theorem tick_periodic
    {due : P2p → Int} {setDue : P2p → Int → P2p} {again : Int → Random → Int × Random}
    {task : Main v → Except Fault (Main v)}
    (h : periodic due setDue again task s = .ok s')
    (htask : ∀ {s s'}, task s = .ok s' → TickActs conf s s')
    (hset : ∀ p t, (setDue p t).timeNow = p.timeNow) :
    TickActs conf s s' := by
  rcases periodic_cases h with ⟨-, rfl⟩ | ⟨-, s₁, hrun, rfl⟩
  · exact .refl _
  · exact (htask hrun).trans (tick_store rfl rfl rfl rfl (hset _ _))

/-- Every periodic task. -/
theorem tick_cronTasks
    {task : Main v → Except Fault (Main v)}
    (htask : task ∈ cronTasks conf) (h : task s = .ok s') :
    TickActs conf s s' := by
  rcases List.mem_cons.mp htask with rfl | htask
  · refine tick_periodic h (fun {s s'} hrun => ?_) fun _ _ => rfl
    cases hrun
    exact tick_store rfl rfl rfl rfl rfl
  rcases List.mem_cons.mp htask with rfl | htask
  · exact tick_periodic h tick_cronExpire fun _ _ => rfl
  rcases calmTasks_cases (A := fun _ => False) htask h with
    rfl | ⟨s₁, p, rnd, hcalm, htimers, rfl⟩
  · exact .refl _
  · exact hcalm.tick.trans (tick_store rfl rfl rfl rfl htimers.now)

/-- A tick of the clock, after `p2p_cron` has read it. -/
theorem tick_p2pCron
    {now : Int} {resolved : List (List (Ip v))} (h : p2pCron conf now resolved s = .ok s') :
    TickActs conf { s with p2p := { s.p2p with timeNow := now } } s' := by
  simp only [p2pCron] at h
  split at h
  · refine tick_periodic h (fun {s s'} hrun => ?_) fun _ _ => rfl
    cases hrun
    exact (calm_p2pBootstrap _ _).tick
  · exact foldlM_rel Leads.refl Leads.trans (fun task htask => tick_cronTasks htask) h

theorem acts_cronTasks
    {task : Main v → Except Fault (Main v)}
    (htask : task ∈ cronTasks conf) (h : task s = .ok s') :
    SilentActs conf s s' :=
  (tick_cronTasks htask h).silent

theorem acts_p2pCron
    {now : Int} {resolved : List (List (Ip v))} (h : p2pCron conf now resolved s = .ok s') :
    SilentActs conf s s' := by
  have hclock : SilentActs conf s { s with p2p := { s.p2p with timeNow := now } } :=
    acts_store rfl rfl rfl rfl
  exact hclock.trans (tick_p2pCron h).silent

/-! ## Whole events -/

theorem resolves_rSuccess_none
    {sa : Ip v} {msg : DnsMsg} {list : List (Pair v)} (h : s.rSuccess none sa msg list = .ok s') :
    ResolvesActs conf s s' := by
  rw [Main.rSuccess] at h
  split at h
  · cases h
  · cases h
    exact .refl _
  · cases h
    exact .single (.respond _) trivial rfl

theorem resolves_rLookup
    {hostname : Bytes} {sa : Ip v} {msg : DnsMsg} (h : rLookup conf s hostname sa msg = .ok s') :
    ResolvesActs conf s s' := by
  rw [rLookup] at h
  dsimp only at h
  generalize cacheCompactList s.now s.cache (idHostid conf hostname) = cached at h
  have hcache : ResolvesActs conf s { s with cache := cached.2 } :=
    .single (.store { s with cache := cached.2 }) ⟨rfl, rfl⟩ rfl
  refine hcache.trans ?_
  split at h
  · exact resolves_rSuccess_none h
  split at h
  · exact resolves_rSuccess_none h
  · cases h
    exact .single (.lookup _ _ (.inl rfl) (some (sa, msg))) trivial rfl

/-- A DNS query. -/
theorem resolves_rParse
    {mem : Mem} {bufsize : Nat} {sa : Ip v} (h : s.rParse conf mem bufsize sa = .ok s') :
    ResolvesActs conf s s' := by
  simp only [Main.rParse] at h
  generalize rParse s.names mem bufsize sa = parsed at h
  have hnames : ResolvesActs conf s { s with names := parsed.2 } :=
    .single (.names parsed.2) trivial rfl
  refine hnames.trans ?_
  split at h
  · cases h
    exact .refl _
  · exact resolves_rLookup h
  · cases h
    exact .single (.respond _) trivial rfl

/-- Every event is a sequence of acts. -/
theorem acts_daemonStep {e : Event v} (h : daemonStep conf s e = .ok s') :
    Reaches (actStep conf) (fun _ => True) s s' := by
  have hevent : Reaches (actStep conf) (fun _ => True) s { s with sent := [] } :=
    .single (.event) trivial rfl
  refine hevent.trans ?_
  cases e with
  | dns datagram sa =>
      exact Leads.reaches (resolves_rParse h) fun _ _ _ => trivial
  | p2p now behind datagram sa =>
      exact (acts_p2pParse h).mono fun _ _ => trivial
  | cron now resolved =>
      exact (acts_p2pCron h).mono fun _ _ => trivial

/-- Every run of the daemon is a sequence of acts. -/
theorem acts_run {events : List (Event v)} (h : run (daemonStep conf) s events = .ok s') :
    Reaches (actStep conf) (fun _ => True) s s' :=
  Reaches.lift Reaches.refl Reaches.trans (fun _ hstep => acts_daemonStep hstep)
    ⟨events, fun _ _ => trivial, h⟩

/-! ## What happens to lookups -/

/-- The three functions that change a lookup. -/
inductive Lookup.Step : Lookup v → Lookup v → Prop where
  | update (l : Lookup v) (id : NodeId) (token : Bytes) (sa : Ip v) :
      Step l (ldbUpdate l id token sa)
  | put (l : Lookup v) (id : NodeId) (sa : Ip v) : Step l (ldbPut l id sa).2
  | count (l : Lookup v) : Step l (ldbNumberOfDnsResponses l).2

/-- Lookups that were there before have changed through these functions only, or
are gone. -/
structure LookupsEvolve (s s' : Main v) : Prop where
  fresh : s.transaction.lookups.fresh ≤ s'.transaction.lookups.fresh
  steps : ∀ l < s.transaction.lookups.fresh, ∀ lookup',
    s'.transaction.lookups.get l = some lookup' →
      ∃ lookup, s.transaction.lookups.get l = some lookup ∧
        Relation.ReflTransGen Lookup.Step lookup lookup'

namespace LookupsEvolve

variable {s'' : Main v}

/-- The lookups are the same. -/
theorem of_eq (h : s'.transaction.lookups = s.transaction.lookups) : LookupsEvolve s s' where
  fresh := Nat.le_of_eq (congrArg Heap.fresh h.symm)
  steps := by
    intro l _ lookup' hget
    rw [h] at hget
    exact ⟨lookup', hget, .refl⟩

theorem refl (s : Main v) : LookupsEvolve s s :=
  .of_eq rfl

theorem trans (h : LookupsEvolve s s') (h' : LookupsEvolve s' s'') : LookupsEvolve s s'' where
  fresh := Nat.le_trans h.fresh h'.fresh
  steps := by
    intro l hl lookup'' hget''
    obtain ⟨lookup', hget', hsteps'⟩ :=
      h'.steps l (Nat.lt_of_lt_of_le hl h.fresh) lookup'' hget''
    obtain ⟨lookup, hget, hsteps⟩ := h.steps l hl lookup' hget'
    exact ⟨lookup, hget, hsteps.trans hsteps'⟩

/-- One lookup has changed. -/
theorem modifyLookup
    {l : Ref} {f : Lookup v → Lookup v}
    (hf : ∀ lookup, s.transaction.lookups.get l = some lookup → lookup.Step (f lookup))
    (h : s'.transaction.lookups = s.transaction.lookups.modify l f) :
    LookupsEvolve s s' where
  fresh := by
    rw [h, Heap.fresh_modify]
  steps := by
    intro q _ lookup' hget
    rw [h] at hget
    rcases eq_or_ne q l with rfl | hq
    · rw [Heap.get_modify_self] at hget
      obtain ⟨lookup, hlookup, rfl⟩ := Option.map_eq_some_iff.mp hget
      exact ⟨lookup, hlookup, .single (hf lookup hlookup)⟩
    · rw [Heap.get_modify_of_ne _ _ hq] at hget
      exact ⟨lookup', hget, .refl⟩

end LookupsEvolve

/-- A new lookup, which then evolves with the others. -/
theorem lookupsEvolve_startLookup_alloc
    (s : Main v) (target : NodeId) (type : TidType) (query : Option (Ip v × DnsMsg)) :
    LookupsEvolve
      { s with
        transaction := { s.transaction with
          lookups := s.transaction.lookups.alloc (ldbInit target query) } }
      (startLookup conf s target type query) := by
  refine List.foldlRecOn (motive := LookupsEvolve _) _ _ (.of_eq rfl) ?_
  intro s₁ h₁ node _
  exact h₁.trans (.modifyLookup (fun lookup _ => .put lookup node.1 node.2) rfl)

theorem lookupsEvolve_startLookup
    (s : Main v) (target : NodeId) (type : TidType) (query : Option (Ip v × DnsMsg)) :
    LookupsEvolve s (startLookup conf s target type query) := by
  refine LookupsEvolve.trans ⟨Nat.le_succ _, ?_⟩
    (lookupsEvolve_startLookup_alloc s target type query)
  intro l hl lookup' hget
  dsimp only at hget
  rw [Heap.get_alloc_of_ne _ _ (Nat.ne_of_lt hl)] at hget
  exact ⟨lookup', hget, .refl⟩

theorem lookupsEvolve_getNodesQuery (l : Ref) (tid : Bytes) (s : Main v) (node : NodeId × Ip v) :
    LookupsEvolve s (getNodesQuery conf l tid s node) := by
  rw [getNodesQuery]
  split
  · exact .refl s
  split
  · exact .refl s
  have hput : LookupsEvolve s (s.nbhdPut conf node.1 node.2) := .of_eq rfl
  dsimp only
  split
  · exact hput
  rename_i lookup hlookup
  split
  · exact hput
  have hstep : ∀ lookup', s.transaction.lookups.get l = some lookup' →
      lookup'.Step (ldbPut lookup node.1 node.2).2 := by
    intro lookup' hlookup'
    cases hlookup.symm.trans hlookup'
    exact .put lookup node.1 node.2
  split
  · exact .modifyLookup hstep rfl
  · exact .modifyLookup hstep rfl

theorem lookupsEvolve_values
    {id : NodeId} {ti : Ref} {token : Bytes} {values : List Ben} {sa : Ip v}
    (h : p2pGetPeersGetValues s id ti token values sa = .ok s') :
    LookupsEvolve s s' := by
  rcases p2pGetPeersGetValues_cases h with rfl | ⟨l, lookup, -, hcases⟩
  · exact .refl _
  have hupdate : LookupsEvolve s (s.modifyLookup l fun lookup => ldbUpdate lookup id token sa) :=
    .modifyLookup (fun lookup _ => .update lookup id token sa) rfl
  rcases hcases with rfl | ⟨pairs, -, -, -, hanswer⟩
  · exact hupdate
  · obtain ⟨put, -, cache, sent, rfl, -⟩ := answerInitiator_cases hanswer
    exact hupdate.trans (.modifyLookup (fun lookup _ => .count lookup) rfl)

theorem lookupsEvolve_actStep {a : Act v} (h : actStep conf s a = .ok s') :
    LookupsEvolve s s' := by
  cases a with
  | event | store m | names names | found r time | tdbPut type other | send sa dict other
  | respond d =>
      cases h
      exact .of_eq rfl
  | nbhd op =>
      rw [actStep] at h
      split at h
      · cases h
      · cases h
        exact .of_eq rfl
  | tdbDel ti =>
      cases h
      refine ⟨Nat.le_of_eq (fresh_tdbDel _ ti).symm, ?_⟩
      intro l _ lookup' hget
      exact ⟨lookup', get_of_get_tdbDel hget, .refl⟩
  | lookup target type owner query =>
      cases h
      exact lookupsEvolve_startLookup s target type query
  | nodes id ti tid token nodes sa =>
      cases h
      rw [p2pGetPeersGetNodes]
      split
      · exact .refl s
      · rename_i l _ _
        refine List.foldlRecOn (motive := LookupsEvolve s) _ _ ?_
          fun s₁ h₁ node _ => h₁.trans (lookupsEvolve_getNodesQuery l tid s₁ node)
        exact .modifyLookup (fun lookup _ => .update lookup id token sa) rfl
  | values id ti token values sa =>
      exact lookupsEvolve_values h

/-- In a run the lookups evolve. -/
theorem lookupsEvolve_acts (h : Reaches (actStep conf) (fun _ => True) s s') :
    LookupsEvolve s s' :=
  Reaches.lift LookupsEvolve.refl LookupsEvolve.trans (fun _ => lookupsEvolve_actStep) h

end Act
end Torrentkino
