import Torrentkino.P2p.LookupName

/-!
# Renewing the cache

`cache_renew` looks up every cached target again every five minutes.  The lookup
has no initiator, and `p2p_get_peers_get_values` drops the values of such lookups
in front of `cache_put`.

**Result.** `renewal_caches_iff`: the values of a renewal leave the cache as it is, and
so are in it for the next thirty minutes exactly if they have been there before.
-/

namespace Torrentkino

open Memory Simulation

variable {v : Build} {conf : Conf}

/-- Whether anybody waits for a lookup is settled when it starts. -/
theorem initiator_of_steps
    {l l' : Lookup v} (h : Relation.ReflTransGen Lookup.Step l l') :
    l'.sendResponseToInitiator = l.sendResponseToInitiator := by
  induction h with
  | refl =>
      rfl
  | tail _ hstep ih =>
      rw [← ih]
      cases hstep with
      | update id token sa =>
          rw [ldbUpdate]
          split <;> rfl
      | put id sa =>
          rw [ldbPut]
          split <;> rfl
      | count =>
          rfl

/-! ## Values for a renewal -/

/-- The cache has the pairs for the target, with thirty minutes to live. -/
def Renewed (now : Int) (cache : Cache v) (target : NodeId) (pairs : List (Pair v)) : Prop :=
  ∃ t, cache.targets.lookup target.bytes = some t ∧
    ∀ pair ∈ pairs, ∃ n ∈ t.nodes.objects, n.pair = pair ∧ n.eol = timeAdd30Min now

/-- A `get_peers` reply with values for a lookup that `cache_renew` has started. -/
structure RenewalReply (v : Build) (conf : Conf) where
  /-- The daemon when `cache_renew` comes to the target. -/
  before : Main v
  reached : ∃ now identity rnd names, Reaches (actStep conf) (fun _ => True)
    (mainInit now identity rnd names) before
  r : Ref
  target : NodeId
  due : ∃ t, before.cache.targets.heap.get r = some t ∧ t.target = target ∧
    before.now > t.refresh
  /-- The daemon when the reply arrives. -/
  main : Main v
  later : Reaches (actStep conf) (fun _ => True) (cacheRenewTarget conf before r) main
  ti : Ref
  /-- The transaction is the one of the lookup. -/
  answers : ∃ lookup, main.lookupOf ti = some (before.transaction.lookups.fresh, lookup)
  cached : cacheFind main.cache target ≠ none
  id : NodeId
  token : Bytes
  sa : Ip v
  values : List Ben
  pairs : List (Pair v)
  wellFormed : valuesPairs v values = some pairs
  nonempty : pairs ≠ []

namespace RenewalReply

/-- The handler of the reply. -/
def handle (x : RenewalReply v conf) : Except Fault (Main v) :=
  p2pGetPeersGetValues x.main x.id x.ti x.token x.values x.sa

/-- The lookup has no initiator. -/
theorem lookup_initiator (x : RenewalReply v conf) :
    ∃ lookup, x.main.lookupOf x.ti = some (x.before.transaction.lookups.fresh, lookup) ∧
      lookup.sendResponseToInitiator = false := by
  obtain ⟨lookup', hanswers⟩ := x.answers
  refine ⟨lookup', hanswers, ?_⟩
  obtain ⟨t, hget, -, hdue⟩ := x.due
  -- From the moment the lookup was created.
  have hevolve : LookupsEvolve
      { x.before with
        transaction := { x.before.transaction with
          lookups := x.before.transaction.lookups.alloc (ldbInit t.target none) } } x.main := by
    refine LookupsEvolve.trans ?_ (lookupsEvolve_acts x.later)
    rw [cacheRenewTarget, hget]
    dsimp only
    rw [if_pos hdue]
    exact (lookupsEvolve_startLookup_alloc x.before t.target .getPeers none).trans (.of_eq rfl)
  obtain ⟨lookup, halloc, hsteps⟩ := hevolve.steps _ (Nat.lt_succ_self _) lookup'
    (get_of_lookupOf hanswers)
  rw [initiator_of_steps hsteps]
  cases (Heap.get_alloc_self _ _).symm.trans halloc
  rfl

end RenewalReply

/-- A values reply to a renewal leaves the cache as it is: afterwards its first at
most eight pairs are in the entry of the target with thirty minutes to live if and
only if they were before. -/
theorem renewal_caches_iff (x : RenewalReply v conf) :
    ∃ s', x.handle = .ok s' ∧ s'.cache = x.main.cache ∧
      (Renewed x.main.now s'.cache x.target x.pairs ↔
        Renewed x.main.now x.main.cache x.target x.pairs) := by
  obtain ⟨lookup, hlookup, hsend⟩ := x.lookup_initiator
  refine ⟨x.main.modifyLookup x.before.transaction.lookups.fresh fun lookup =>
    ldbUpdate lookup x.id x.token x.sa, ?_, rfl, Iff.rfl⟩
  rw [RenewalReply.handle, p2pGetPeersGetValues, hlookup]
  dsimp only
  rw [x.wellFormed]
  split
  · rfl
  · rfl
  · rw [hsend]
    rfl

/-! ## A renewal -/

/-- The key of `a.p2p`. -/
def hostTarget : NodeId :=
  hostsConf.sha1Hash [97, 46, 112, 50, 112]

/-- The address that the node replies with. -/
def hostPair : Pair .ipv4 :=
  ⟨[10, 0, 0, 7, 31, 144], rfl⟩

/-- A client has asked for `a.p2p`, and a node has replied at 1.  The next tick comes to
`cache_renew`. -/
def beforeRenewal (now : Int) : Except Fault (Main .ipv4) := do
  let s ← run (daemonStep hostsConf)
    (mainInit 0 [] ⟨fun _ => 0, UInt8.ofNat⟩ (List.replicate 256 0))
    [nodePings, asksForA, nodeReplies]
  ((cronTasks hostsConf).take 7).foldlM (fun s task => task s)
    { s with p2p := { s.p2p with timeNow := now } }

theorem beforeRenewal_reached {now : Int} {s : Main .ipv4} (h : beforeRenewal now = .ok s) :
    Reaches (actStep hostsConf) (fun _ => True)
      (mainInit 0 [] ⟨fun _ => 0, UInt8.ofNat⟩ (List.replicate 256 0)) s := by
  rw [beforeRenewal] at h
  cases hrun : run (daemonStep hostsConf)
      (mainInit 0 [] ⟨fun _ => 0, UInt8.ofNat⟩ (List.replicate 256 0))
      [nodePings, asksForA, nodeReplies] with
  | error e =>
      rw [hrun] at h
      cases h
  | ok s₁ =>
      rw [hrun] at h
      have hclock : SilentActs hostsConf s₁ { s₁ with p2p := { s₁.p2p with timeNow := now } } :=
        acts_store rfl rfl rfl rfl
      have htasks : SilentActs hostsConf { s₁ with p2p := { s₁.p2p with timeNow := now } } s :=
        Reaches.foldlM (fun task htask => acts_cronTasks (List.mem_of_mem_take htask)) h
      exact (acts_run hrun).trans ((hclock.trans htasks).mono fun _ _ => trivial)

/-- What is known of the target and of the lookup that comes next. -/
def dueTarget (s : Main .ipv4) : Option (NodeId × Int) × Int × Ref :=
  ((s.cache.targets.heap.get 0).map fun t => (t.target, t.refresh), s.now,
    s.transaction.lookups.fresh)

/-- The lookup of the transaction, and what is known of the target. -/
def cachedTarget (s : Main .ipv4) : Option Ref × Option Ref × Option (List (Pair .ipv4 × Int)) :=
  ((s.lookupOf 3).map Prod.fst, cacheFind s.cache hostTarget,
    (s.cache.targets.lookup hostTarget.bytes).map fun t => t.nodes.objects.map fun n =>
      (n.pair, n.eol))

/-- The node replies with the address for the transaction of the renewal. -/
def repliesAgain (s : Main .ipv4) : Except Fault (Main .ipv4) :=
  p2pGetPeersGetValues s .zero 3 [1] [.str hostPair.bytes] (.ofQuad 10 0 0 9 (26, 225))

theorem exists_renewalReply
    {now refresh : Int} {s main : Main .ipv4} {r : Ref} {found : Option (List (Pair .ipv4 × Int))}
    (hs : beforeRenewal now = .ok s) (hdue : dueTarget s = (some (hostTarget, refresh), now, 1))
    (hrefresh : refresh < now)
    (hlater : Reaches (actStep hostsConf) (fun _ => True) (cacheRenewTarget hostsConf s 0) main)
    (hmain : cachedTarget main = (some 1, some r, found)) :
    ∃ x : RenewalReply .ipv4 hostsConf, x.main = main ∧ x.target = hostTarget ∧
      x.pairs = [hostPair] ∧ x.handle = repliesAgain main := by
  obtain ⟨hget, hdue⟩ := Prod.ext_iff.mp hdue
  obtain ⟨hnow, hfresh⟩ := Prod.ext_iff.mp hdue
  obtain ⟨t, ht, htarget⟩ := Option.map_eq_some_iff.mp hget
  obtain ⟨htarget, hrefresh'⟩ := Prod.ext_iff.mp htarget
  obtain ⟨hlookup, hmain⟩ := Prod.ext_iff.mp hmain
  obtain ⟨hcached, -⟩ := Prod.ext_iff.mp hmain
  obtain ⟨⟨l, lookup⟩, hlookup, hl⟩ := Option.map_eq_some_iff.mp hlookup
  dsimp only [dueTarget, cachedTarget] at hnow hfresh htarget hrefresh' hcached hl
  subst hl
  exact ⟨{ before := s
           reached := ⟨_, _, _, _, beforeRenewal_reached hs⟩
           r := 0
           target := hostTarget
           due := ⟨t, ht, htarget, by rwa [hnow, hrefresh']⟩
           main := main
           later := hlater
           ti := 3
           answers := ⟨lookup, by rw [hlookup, hfresh]⟩
           cached := by rw [hcached]; exact Option.some_ne_none r
           id := .zero
           token := [1]
           sa := .ofQuad 10 0 0 9 (26, 225)
           values := [.str hostPair.bytes]
           pairs := [hostPair]
           wellFormed := by decide
           nonempty := List.cons_ne_nil _ _ }, rfl, rfl, rfl, rfl⟩

/-- The next tick comes at 1790.  At 1845 the target is dropped from the cache, the client
asks once more, and the node replies at 1847. -/
def cachedAgain (s : Main .ipv4) : Except Fault (Main .ipv4) :=
  run (daemonStep hostsConf) (cacheRenewTarget hostsConf s 0)
    [.cron 1845 [], asksForA,
      .p2p 1847 [] (benEncRec
        (getPeersValuesDict .ipv4 .zero hostPair.bytes [1, 2, 3, 4] [72, 73, 74, 75]))
        (.ofQuad 10 0 0 9 (26, 225))]

/-- The reply to the renewal comes in the same second as the one that goes to the client. -/
theorem renewal_caches_iff_cachedAgain :
    ∃ x : RenewalReply .ipv4 hostsConf, x.main.now = 1847 ∧
      Renewed x.main.now x.main.cache x.target x.pairs ∧
      ∃ s', x.handle = .ok s' ∧ s'.cache = x.main.cache ∧
        Renewed x.main.now s'.cache x.target x.pairs := by
  have hbefore : (beforeRenewal 1790).map dueTarget =
      .ok (some (hostTarget, 241), 1790, 1) := by
    decide +kernel
  have hafter : (beforeRenewal 1790 >>= fun s => (cachedAgain s).map cachedTarget) =
      .ok (some 1, some 1, some [(hostPair, 3647)]) := by
    decide +kernel
  have hclock : (beforeRenewal 1790 >>= fun s => (cachedAgain s).map (·.now)) = .ok 1847 := by
    decide +kernel
  obtain ⟨s, hs, hdue⟩ := map_eq_ok hbefore
  rw [hs] at hafter hclock
  obtain ⟨main, hmain, hcached⟩ := map_eq_ok hafter
  have hnow : main.now = 1847 := by
    obtain ⟨main', hmain', hnow⟩ := map_eq_ok hclock
    cases hmain.symm.trans hmain'
    exact hnow
  obtain ⟨x, rfl, htarget, hpairs, -⟩ :=
    exists_renewalReply hs hdue (by decide) (acts_run hmain) hcached
  have hrenewed : Renewed x.main.now x.main.cache x.target x.pairs := by
    obtain ⟨-, hcached⟩ := Prod.ext_iff.mp hcached
    obtain ⟨-, hfound⟩ := Prod.ext_iff.mp hcached
    obtain ⟨t, ht, hnodes⟩ := Option.map_eq_some_iff.mp hfound
    rw [htarget, hpairs]
    refine ⟨t, ht, fun pair hpair => ?_⟩
    rw [List.mem_singleton.mp hpair]
    obtain ⟨n, hn, heq⟩ := List.mem_map.mp (hnodes ▸ List.mem_singleton_self _)
    obtain ⟨hpair, heol⟩ := Prod.ext_iff.mp heq
    refine ⟨n, hn, hpair, heol.trans ?_⟩
    rw [hnow]
    rfl
  obtain ⟨s', hhandle, hcache, hiff⟩ := renewal_caches_iff x
  exact ⟨x, hnow, hrenewed, s', hhandle, hcache, hiff.mpr hrenewed⟩

/-- The target was due at 400, and the clock is at 401. -/
def afterRenewal (s : Main .ipv4) : Main .ipv4 :=
  let s := cacheRenewTarget hostsConf s 0
  { s with p2p := { s.p2p with timeNow := 401 } }

/-- The node still serves the address, but the entry ends 30 minutes after the first
reply. -/
theorem not_renewed_repliesAgain :
    ¬ ∀ (conf : Conf) (x : RenewalReply .ipv4 conf) (s' : Main .ipv4),
      x.handle = .ok s' → Renewed x.main.now s'.cache x.target x.pairs := by
  intro h
  have hbefore : (beforeRenewal 400).map dueTarget = .ok (some (hostTarget, 241), 400, 1) := by
    decide +kernel
  have hafter : (beforeRenewal 400).map (fun s => cachedTarget (afterRenewal s)) =
      .ok (some 1, some 0, some [(hostPair, 1801)]) := by
    decide +kernel
  have hreplied : (beforeRenewal 400 >>= fun s =>
      (repliesAgain (afterRenewal s)).map cachedTarget) =
        .ok (some 1, some 0, some [(hostPair, 1801)]) := by
    decide +kernel
  obtain ⟨s, hs, hdue⟩ := map_eq_ok hbefore
  rw [hs] at hafter hreplied
  have hlater : Reaches (actStep hostsConf) (fun _ => True) (cacheRenewTarget hostsConf s 0)
      (afterRenewal s) :=
    Reaches.mono (acts_store rfl rfl rfl rfl) fun _ _ => trivial
  obtain ⟨x, hmain, htarget, hpairs, hhandle⟩ :=
    exists_renewalReply hs hdue (by decide) hlater (Except.ok.inj hafter)
  obtain ⟨s', hreply, hfound⟩ := map_eq_ok hreplied
  obtain ⟨t, ht, hrenewed⟩ := h hostsConf x s' (hhandle.trans hreply)
  obtain ⟨n, hn, -, heol⟩ := hrenewed hostPair (hpairs ▸ List.mem_singleton_self _)
  obtain ⟨-, hfound⟩ := Prod.ext_iff.mp hfound
  obtain ⟨-, hfound⟩ := Prod.ext_iff.mp hfound
  rw [htarget] at ht
  have hnodes : t.nodes.objects.map (fun n => (n.pair, n.eol)) = [(hostPair, 1801)] := by
    simpa [cachedTarget, ht] using hfound
  have hpair : (n.pair, n.eol) ∈ [(hostPair, (1801 : Int))] := hnodes ▸ List.mem_map_of_mem hn
  have hlate : n.eol = 1801 := congrArg Prod.snd (List.mem_singleton.mp hpair)
  have hclock : x.main.now = 401 := by
    rw [hmain]
    rfl
  rw [heol, hclock] at hlate
  exact absurd hlate (by decide)

end Torrentkino
