import Torrentkino.P2p.LookupName
import Torrentkino.P2p.LookupQueries

/-!
# One response for a query

A DNS query is answered from the cache, from the value store, or by a remote
lookup, which may receive values many times in the minute that it lives.  The
response of a lookup carries what the cache has for the target after the values
were merged into it.

The run is accompanied by a record of the event that started each lookup, and of
the events that the responses are due to.

**Result.** `dns_answered_once`: in every run, no event gets two responses, each
response is due to an event, and lookups respond with the pairs of the cache.
-/

namespace Torrentkino

open Memory CString Simulation

variable {v : Build} {conf : Conf}

/-! ## Responses -/

/-- The lookup that a DNS response comes from, if the datagram is a response. -/
def Sent.source : Sent v → Option (Option Ref)
  | .p2p _ => none
  | .dns _ l => some l

/-- Where the DNS responses among the datagrams come from. -/
def sources (sent : List (Sent v)) : List (Option Ref) :=
  sent.filterMap Sent.source

@[simp] theorem sources_append (sent sent' : List (Sent v)) :
    sources (sent ++ sent') = sources sent ++ sources sent' :=
  List.filterMap_append

@[simp] theorem sources_dns (d : Datagram v) (l : Option Ref) : sources [.dns d l] = [l] := rfl

@[simp] theorem sources_p2p (d : Option (Datagram v)) :
    sources (d.map Sent.p2p).toList = [] := by
  cases d <;> rfl

theorem mem_sources {d : Datagram v} {l : Option Ref} {sent : List (Sent v)}
    (h : Sent.dns d l ∈ sent) :
    l ∈ sources sent :=
  List.mem_filterMap.mpr ⟨_, h, rfl⟩

theorem sources_queries (conf : Conf) (queries : List (PeersQuery v)) :
    sources (queries.flatMap (PeersQuery.datagram conf)) = [] := by
  induction queries with
  | nil =>
      rfl
  | cons q queries ih =>
      rw [List.flatMap_cons, sources_append, ih, List.append_nil]
      exact sources_p2p _

/-! ## Acts -/

/-- The lookup at `l` still has to answer its query. -/
def WaitsAt (s : Main v) (l : Ref) : Prop :=
  ∃ lookup, s.transaction.lookups.get l = some lookup ∧ lookup.Waits

/-- Only lookups that waited have responded, each of them once, and they do not
wait any more. -/
structure RespondsOnce (s s' : Main v) : Prop where
  waits : ∀ l, WaitsAt s' l → WaitsAt s l
  responses : ∃ ls : List Ref, sources s'.sent = sources s.sent ++ ls.map some ∧ ls.Nodup ∧
    ∀ l ∈ ls, WaitsAt s l ∧ ¬ WaitsAt s' l

section RespondsOnce

variable {s s' s'' : Main v}

theorem RespondsOnce.refl (s : Main v) : RespondsOnce s s where
  waits := fun _ h => h
  responses := ⟨[], by simp, List.nodup_nil, fun _ h => nomatch h⟩

theorem RespondsOnce.trans (h : RespondsOnce s s') (h' : RespondsOnce s' s'') : RespondsOnce s s'' where
  waits := fun l hl => h.waits l (h'.waits l hl)
  responses := by
    obtain ⟨ls, hls, hnodup, hserved⟩ := h.responses
    obtain ⟨ls', hls', hnodup', hserved'⟩ := h'.responses
    refine ⟨ls ++ ls', by rw [hls', hls, List.map_append, List.append_assoc], ?_, ?_⟩
    · refine List.nodup_append.mpr ⟨hnodup, hnodup', ?_⟩
      rintro l hl _ hl' rfl
      exact (hserved l hl).2 (hserved' l hl').1
    · intro l hl
      rcases List.mem_append.mp hl with hl | hl
      · exact ⟨(hserved l hl).1, fun hwaits => (hserved l hl).2 (h'.waits l hwaits)⟩
      · exact ⟨h.waits l (hserved' l hl).1, (hserved' l hl).2⟩

theorem Quiet.respondsOnce (h : Quiet s s') (hsources : sources s'.sent = sources s.sent) :
    RespondsOnce s s' where
  waits := by
    rintro l ⟨lookup', hget', hwaits⟩
    obtain ⟨lookup, hget, hsame⟩ := h.lookups l lookup' hget' hwaits
    exact ⟨lookup, hget, hsame.waits hwaits⟩
  responses := ⟨[], by simp [hsources], List.nodup_nil, fun _ h => nomatch h⟩

/-- A silent act sends no DNS response. -/
theorem sources_actStep {a : Act v} (hsilent : a.Silent) (h : actStep conf s a = .ok s') :
    sources s'.sent = sources s.sent := by
  cases a with
  | event | names names | respond d | values id ti token values sa =>
      cases hsilent
  | nbhd op =>
      rw [actStep] at h
      split at h
      · cases h
      · cases h
        rfl
  | store m | found r time | tdbPut type other | tdbDel ti =>
      cases h
      rfl
  | lookup target type owner query =>
      cases h
      rw [startLookup, sent_lookupQueries, sources_append, sources_queries, List.append_nil]
      rfl
  | nodes id ti tid token nodes sa =>
      cases h
      rw [p2pGetPeersGetNodes]
      split
      · rfl
      · dsimp only
        rw [sent_getNodesQueries, sources_append, sources_queries, List.append_nil]
        rfl
  | send sa dict other =>
      cases h
      rw [Main.send, sources_append, sources_p2p, List.append_nil]

theorem respondsOnce_values
    {id : NodeId} {ti : Ref} {token : Bytes} {values : List Ben} {sa : Ip v}
    (h : p2pGetPeersGetValues s id ti token values sa = .ok s') :
    RespondsOnce s s' where
  waits := by
    rintro l ⟨lookup', hget', hwaits⟩
    obtain ⟨lookup, hget, hsame⟩ :=
      (answering_p2pGetPeersGetValues h).lookups l lookup' hget' hwaits
    exact ⟨lookup, hget, hsame.waits hwaits⟩
  responses := by
    rcases p2pGetPeersGetValues_cases h with rfl | ⟨l, lookup, hlookup, rfl |
      ⟨pairs, -, -, hsend, hanswer⟩⟩
    · exact (RespondsOnce.refl _).responses
    · exact ⟨[], by simp [Main.modifyLookup], List.nodup_nil, fun _ h => nomatch h⟩
    obtain ⟨put, -, cache, sent, rfl, hsent⟩ := answerInitiator_cases hanswer
    rcases hsent with rfl | ⟨hzero, found, w, -, -, -, rfl⟩
    · exact ⟨[], by simp [Main.modifyLookup], List.nodup_nil, fun _ h => nomatch h⟩
    refine ⟨[l], by simp [Main.modifyLookup], List.nodup_singleton l, ?_⟩
    intro l' hl'
    rw [List.mem_singleton] at hl'
    subst hl'
    refine ⟨⟨lookup, get_of_lookupOf hlookup, hsend, hzero⟩, ?_⟩
    rintro ⟨lookup', hget', -, hcount⟩
    change ((s.transaction.lookups.modify l' _).modify l' _).get l' = _ at hget'
    rw [Heap.get_modify_self] at hget'
    obtain ⟨lookup₁, -, rfl⟩ := Option.map_eq_some_iff.mp hget'
    cases hcount

theorem InnerActs.respondsOnce (h : InnerActs conf s s') : RespondsOnce s s' := by
  refine Reaches.lift RespondsOnce.refl RespondsOnce.trans ?_ h
  intro s s' a hinner hstep
  by_cases hsilent : a.Silent
  · exact (quiet_actStep hsilent hstep).respondsOnce (sources_actStep hsilent hstep)
  · cases a with
    | values id ti token values sa =>
        exact respondsOnce_values hstep
    | _ =>
        exact absurd hinner hsilent

end RespondsOnce

/-! ## DNS queries -/

/-- What `r_success` sends for a query of this event. -/
theorem rSuccess_none_spec
    {s s' : Main v} {sa : Ip v} {msg : DnsMsg} {list : List (Pair v)}
    (h : s.rSuccess none sa msg list = .ok s') :
    s'.transaction = s.transaction ∧
      (sources s'.sent = sources s.sent ∨ sources s'.sent = sources s.sent ++ [none]) := by
  rw [Main.rSuccess] at h
  split at h
  · cases h
  · cases h
    exact ⟨rfl, .inl rfl⟩
  · cases h
    exact ⟨rfl, .inr (sources_append _ _)⟩

/-- A new lookup sends no DNS response, and only it waits for one. -/
theorem startLookup_spec
    (conf : Conf) (s : Main v) (target : NodeId) (type : TidType) (query : Option (Ip v × DnsMsg)) :
    sources (startLookup conf s target type query).sent = sources s.sent ∧
      ∀ l, WaitsAt (startLookup conf s target type query) l →
        l = s.transaction.lookups.fresh ∨ WaitsAt s l := by
  constructor
  · rw [startLookup, sent_lookupQueries, sources_append, sources_queries, List.append_nil]
    rfl
  · rintro l ⟨lookup', hget', hwaits⟩
    obtain ⟨lookup, hget, hsame⟩ :=
      (quiet_startLookup s target type query).lookups l lookup' hget' hwaits
    dsimp only at hget
    rcases eq_or_ne l s.transaction.lookups.fresh with rfl | hl
    · exact .inl rfl
    · rw [Heap.get_alloc_of_ne _ _ hl] at hget
      exact .inr ⟨lookup, hget, hsame.waits hwaits⟩

/-- A DNS query starts a lookup, or there is at most one response to it now. -/
theorem daemonStep_dns
    {s s' : Main v} {datagram : Bytes} {sa : Ip v}
    (h : daemonStep conf s (.dns datagram sa) = .ok s') :
    (startedBy conf s (.dns datagram sa) = none ∧ s'.transaction = s.transaction ∧
      (sources s'.sent = [] ∨ sources s'.sent = [none])) ∨
    (∃ q, startedBy conf s (.dns datagram sa) = some q) ∧ sources s'.sent = [] ∧
      ∀ l, WaitsAt s' l → l = s.transaction.lookups.fresh ∨ WaitsAt s l := by
  simp only [daemonStep, Main.rParse] at h
  simp only [startedBy]
  generalize rParse s.names (buffer (datagram.take udpBuf) []) (datagram.take udpBuf).length sa =
    parsed at h ⊢
  obtain ⟨verdict, names⟩ := parsed
  cases verdict with
  | drop reason =>
      cases h
      exact .inl ⟨rfl, rfl, .inl rfl⟩
  | failure msg =>
      cases h
      exact .inl ⟨rfl, rfl, .inr rfl⟩
  | lookup msg =>
      dsimp only at h ⊢
      rw [rLookup] at h
      dsimp only at h
      have hpairs : ∀ target, (cacheCompactList s.now s.cache target).1 =
          cacheCompactPairs s.cache target := fun _ => rfl
      rw [← hpairs]
      change (if (cacheCompactList s.now s.cache _).1 ≠ [] then _ else _) = _ at h
      split at h
      · rename_i hcached
        rw [if_neg (fun hnone => hcached hnone.1)]
        obtain ⟨htransaction, hsources⟩ := rSuccess_none_spec h
        exact .inl ⟨rfl, htransaction, hsources⟩
      rename_i hcached
      split at h
      · rename_i hknown
        rw [if_neg (fun hnone => hknown hnone.2)]
        obtain ⟨htransaction, hsources⟩ := rSuccess_none_spec h
        exact .inl ⟨rfl, htransaction, hsources⟩
      · rename_i hknown
        cases h
        rw [if_pos ⟨not_not.mp hcached, not_not.mp hknown⟩]
        obtain ⟨hsources, hwaits⟩ := startLookup_spec conf _ _ _ _
        exact .inr ⟨⟨_, rfl⟩, hsources, hwaits⟩

/-! ## What lookups respond with -/

/-- The datagram is the response of the lookup at `l` to values that arrive at the
clock reading `now`: these are merged into the cache, and what the cache then has
for the target, at least one and at most eight pairs, is sent to the initiator. -/
def CarriesCached (now : Int) (s : Main v) (d : Datagram v) (l : Ref) : Prop :=
  ∃ lookup pairs found w, s.transaction.lookups.get l = some lookup ∧ pairs ≠ [] ∧
    (cacheCompactList now (cachePut now s.cache lookup.target pairs s.random).1
      lookup.target).1 = found ∧
    found ≠ [] ∧ found.length ≤ 8 ∧
    rSuccess v s.names lookup.msg (found.flatMap (·.bytes)) = .ok (some w) ∧
    d = ⟨lookup.cAddr, w.out⟩

/-- The responses of lookups that leave between the two states are of this kind. -/
def Merges (now : Int) (s s' : Main v) : Prop :=
  ∀ d l, Sent.dns d (some l) ∈ s'.sent →
    Sent.dns d (some l) ∈ s.sent ∨ CarriesCached now s d l

section Merges

variable {s s' s'' : Main v} {now : Int}

theorem Quiet.merges (h : Quiet s s') : Merges now s s' :=
  fun d l hd => .inl (h.sent d l hd)

theorem Merges.trans_quiet (h : Merges now s s') (h' : Quiet s' s'') : Merges now s s'' :=
  fun d l hd => h d l (h'.sent d l hd)

theorem merges_values
    {id : NodeId} {ti : Ref} {token : Bytes} {values : List Ben} {sa : Ip v}
    (h : p2pGetPeersGetValues s id ti token values sa = .ok s') :
    Merges s.now s s' := by
  intro d l' hd
  rcases p2pGetPeersGetValues_cases h with rfl | ⟨l, lookup, hlookup, rfl |
    ⟨pairs, -, hpairs, -, hanswer⟩⟩
  · exact .inl hd
  · exact .inl hd
  obtain ⟨put, rfl, cache, sent, rfl, hsent⟩ := answerInitiator_cases hanswer
  rcases List.mem_append.mp hd with hd | hd
  · exact .inl hd
  rcases hsent with rfl | ⟨-, found, w, hfound, hne, hw, rfl⟩
  · cases hd
  · rw [List.mem_singleton] at hd
    cases hd
    exact .inr ⟨lookup, pairs, found, w, get_of_lookupOf hlookup, hpairs, hfound, hne,
      hfound ▸ cacheCompactPairs_length_le _ _, hw, rfl⟩

theorem merges_handleReply
    {id : NodeId} {ti : Ref} {tid : Bytes} {sa : Ip v} {r : Reply}
    (h : handleReply conf s id ti tid sa r = .ok s') :
    Merges s.now s s' := by
  cases r with
  | pong =>
      cases h
      exact (acts_p2pPong conf s id sa).quiet.merges
  | findNode nodes =>
      cases h
      exact (acts_p2pFindNodeGetReply conf s nodes).quiet.merges
  | getPeersNodes token nodes =>
      cases h
      exact (quiet_p2pGetPeersGetNodes conf s id ti tid token nodes sa).merges
  | getPeersValues token values =>
      exact merges_values h
  | announce =>
      cases h
      exact (Quiet.refl _).merges

theorem merges_p2pReply
    {packet : Ben} {sa : Ip v} (h : p2pReply conf s packet sa = .ok s') :
    Merges s.now s s' := by
  rcases p2pReply_cases h with
    ⟨rfl, -⟩ | ⟨head, -, ⟨rfl, -⟩ | ⟨ti, type, s₁, -, -, hhandled, rfl⟩⟩
  · exact (Quiet.refl _).merges
  · exact (SilentActs.quiet (acts_nbhdPut conf s head.id sa)).merges
  rcases hhandled with rfl | ⟨reply, -, hrun⟩
  · exact ((SilentActs.quiet (acts_nbhdPut conf s head.id sa)).trans
      (acts_replyCleanup conf type ti _).quiet).merges
  · have hmerges : Merges s.now (s.nbhdPut conf head.id sa) s₁ := merges_handleReply hrun
    -- The new node changes nothing that the response depends on.
    exact Merges.trans_quiet (s := s) hmerges (acts_replyCleanup conf type ti s₁).quiet

theorem merges_p2pParse
    {behind : Bytes} {bencode : Raw} {sa : Ip v}
    (h : p2pParse conf behind now s bencode sa = .ok s') :
    Merges now s s' := by
  have hclock : Quiet s { s with p2p := { s.p2p with timeNow := now } } := .of_eq rfl rfl rfl
  rcases p2pParse_cases h with rfl | ⟨-, -, packet, ⟨-, hrun⟩ | ⟨-, hrun⟩⟩
  · exact hclock.merges
  · exact (hclock.trans (acts_p2pRequest hrun).quiet).merges
  · exact merges_p2pReply hrun

end Merges

/-! ## Runs -/

/-- The state of the daemon with the number of events so far, the event that
started each lookup for a query, and the events that the responses were due to. -/
structure Served (v : Build) where
  main : Main v
  events : Nat
  origin : Ref → Option Nat
  answered : List (Option Nat)

/-- The event a response in the event `i` is due to. -/
def dueTo (origin : Ref → Option Nat) (i : Nat) : Option Ref → Option Nat
  | none => some i
  | some l => origin l

/-- One event.  The new lookup of a remote search is the next heap object. -/
def servedStep (conf : Conf) (t : Served v) (e : Event v) : Except Fault (Served v) :=
  (daemonStep conf t.main e).map fun main =>
    let origin := match startedBy conf t.main e with
      | none => t.origin
      | some _ => Function.update t.origin t.main.transaction.lookups.fresh (some t.events)
    { main := main
      events := t.events + 1
      origin := origin
      answered := t.answered ++ (sources main.sent).map (dueTo origin t.events) }

/-- The state after the start. -/
def servedInit (now : Int) (identity : List Identity) (rnd : Random) (names : Bytes) :
    Served v where
  main := mainInit now identity rnd names
  events := 0
  origin := fun _ => none
  answered := []

/-- The responses of lookups in the step carry what the cache has for the target. -/
def RespondsCached (t : Served v) (e : Event v) (t' : Served v) : Prop :=
  ∀ d l, Sent.dns d (some l) ∈ t'.main.sent →
    ∃ now behind datagram sa, e = .p2p now behind datagram sa ∧ CarriesCached now t.main d l

/-- Waiting lookups were started by different events, which have no response yet. -/
structure ServedInv (t : Served v) : Prop where
  nodup : t.answered.Nodup
  answered : ∀ o ∈ t.answered, ∃ i < t.events, o = some i
  waiting : ∀ l, WaitsAt t.main l →
    ∃ i < t.events, t.origin l = some i ∧ some i ∉ t.answered
  distinct : ∀ l l', WaitsAt t.main l → WaitsAt t.main l' → t.origin l = t.origin l' → l = l'

namespace ServedInv

variable {t : Served v} {main : Main v}

/-- The present event has no response yet. -/
theorem events_notMem (h : ServedInv t) : some t.events ∉ t.answered := by
  intro hmem
  obtain ⟨i, hi, heq⟩ := h.answered _ hmem
  cases heq
  exact Nat.lt_irrefl _ hi

/-- One more event, with responses that are due to events without one. -/
theorem extend
    (h : ServedInv t) {origin : Ref → Option Nat} {new : List (Option Nat)}
    (hnodup : new.Nodup)
    (hnew : ∀ o ∈ new, o ∉ t.answered ∧ ∃ i < t.events + 1, o = some i)
    (hwaiting : ∀ l, WaitsAt main l →
      ∃ i < t.events + 1, origin l = some i ∧ some i ∉ t.answered ∧ some i ∉ new)
    (hdistinct : ∀ l l', WaitsAt main l → WaitsAt main l' → origin l = origin l' → l = l') :
    ServedInv
      { main := main
        events := t.events + 1
        origin := origin
        answered := t.answered ++ new } where
  nodup := by
    refine List.nodup_append.mpr ⟨h.nodup, hnodup, ?_⟩
    rintro o ho _ ho' rfl
    exact (hnew o ho').1 ho
  answered := by
    intro o ho
    rcases List.mem_append.mp ho with ho | ho
    · obtain ⟨i, hi, rfl⟩ := h.answered o ho
      exact ⟨i, Nat.lt_succ_of_lt hi, rfl⟩
    · exact (hnew o ho).2
  waiting := by
    intro l hl
    obtain ⟨i, hi, horigin, hold, hmem⟩ := hwaiting l hl
    refine ⟨i, hi, horigin, ?_⟩
    rw [List.mem_append]
    exact not_or.mpr ⟨hold, hmem⟩
  distinct := hdistinct

/-- An event that is not a DNS query. -/
theorem respond (h : ServedInv t) (hserve : RespondsOnce { t.main with sent := [] } main) :
    ServedInv
      { main := main
        events := t.events + 1
        origin := t.origin
        answered := t.answered ++ (sources main.sent).map (dueTo t.origin t.events) } := by
  obtain ⟨ls, hls, hnodup, hserved⟩ := hserve.responses
  have hdue : (sources main.sent).map (dueTo t.origin t.events) = ls.map t.origin := by
    rw [hls, List.map_append, List.map_map]
    rfl
  rw [hdue]
  refine h.extend ?_ ?_ ?_ ?_
  · refine List.Nodup.map_on ?_ hnodup
    intro l hl l' hl' heq
    exact h.distinct l l' (hserved l hl).1 (hserved l' hl').1 heq
  · intro o ho
    obtain ⟨l, hl, rfl⟩ := List.mem_map.mp ho
    obtain ⟨i, hi, horigin, hnew⟩ := h.waiting l (hserved l hl).1
    rw [horigin]
    exact ⟨hnew, i, Nat.lt_succ_of_lt hi, rfl⟩
  · intro l hl
    obtain ⟨i, hi, horigin, hnew⟩ := h.waiting l (hserve.waits l hl)
    refine ⟨i, Nat.lt_succ_of_lt hi, horigin, hnew, ?_⟩
    -- A lookup that has responded does not wait any more.
    intro hmem
    obtain ⟨l', hl', heq⟩ := List.mem_map.mp hmem
    have hsame := h.distinct l l' (hserve.waits l hl) (hserved l' hl').1
      (horigin.trans heq.symm)
    exact (hserved l' hl').2 (hsame ▸ hl)
  · intro l l' hl hl' heq
    exact h.distinct l l' (hserve.waits l hl) (hserve.waits l' hl') heq

/-- A DNS query that is answered at once, or not at all. -/
theorem direct
    (h : ServedInv t) (htransaction : main.transaction = t.main.transaction)
    (hsources : sources main.sent = [] ∨ sources main.sent = [none]) :
    ServedInv
      { main := main
        events := t.events + 1
        origin := t.origin
        answered := t.answered ++ (sources main.sent).map (dueTo t.origin t.events) } := by
  have hwaits : ∀ l, WaitsAt main l → WaitsAt t.main l := by
    rintro l ⟨lookup, hget, hl⟩
    rw [htransaction] at hget
    exact ⟨lookup, hget, hl⟩
  have hdue : ∀ o ∈ (sources main.sent).map (dueTo t.origin t.events), o = some t.events := by
    intro o ho
    rcases hsources with hnil | hnone
    · rw [hnil] at ho
      cases ho
    · rw [hnone] at ho
      exact List.mem_singleton.mp ho
  refine h.extend ?_ ?_ ?_ ?_
  · rcases hsources with hnil | hnone
    · rw [hnil]
      exact List.nodup_nil
    · rw [hnone]
      exact List.nodup_singleton _
  · intro o ho
    rw [hdue o ho]
    exact ⟨h.events_notMem, t.events, Nat.lt_succ_self _, rfl⟩
  · intro l hl
    obtain ⟨i, hi, horigin, hnew⟩ := h.waiting l (hwaits l hl)
    refine ⟨i, Nat.lt_succ_of_lt hi, horigin, hnew, ?_⟩
    intro hmem
    cases hdue _ hmem
    exact Nat.lt_irrefl _ hi
  · intro l l' hl hl' heq
    exact h.distinct l l' (hwaits l hl) (hwaits l' hl') heq

/-- A DNS query that starts a lookup. -/
theorem start
    (h : ServedInv t) (hsources : sources main.sent = [])
    (hwaits : ∀ l, WaitsAt main l → l = t.main.transaction.lookups.fresh ∨ WaitsAt t.main l) :
    ServedInv
      { main := main
        events := t.events + 1
        origin := Function.update t.origin t.main.transaction.lookups.fresh (some t.events)
        answered := t.answered ++ (sources main.sent).map (dueTo
          (Function.update t.origin t.main.transaction.lookups.fresh (some t.events))
          t.events) } := by
  -- The new lookup was not there before.
  have hold : ∀ l, WaitsAt t.main l → l ≠ t.main.transaction.lookups.fresh := by
    rintro l ⟨lookup, hget, -⟩
    exact Nat.ne_of_lt (Heap.lt_fresh hget)
  rw [hsources, List.map_nil]
  refine h.extend List.nodup_nil (fun _ ho => nomatch ho) ?_ ?_
  · intro l hl
    rcases hwaits l hl with rfl | hl
    · exact ⟨t.events, Nat.lt_succ_self _, Function.update_self _ _ _, h.events_notMem,
        List.not_mem_nil⟩
    · obtain ⟨i, hi, horigin, hnew⟩ := h.waiting l hl
      refine ⟨i, Nat.lt_succ_of_lt hi, ?_, hnew, List.not_mem_nil⟩
      rw [Function.update_of_ne (hold l hl), horigin]
  · -- Earlier lookups were started by earlier events.
    have hearlier : ∀ l, WaitsAt t.main l → t.origin l ≠ some t.events := by
      intro l hl heq
      obtain ⟨i, hi, horigin, -⟩ := h.waiting l hl
      cases horigin.symm.trans heq
      exact Nat.lt_irrefl _ hi
    intro l l' hl hl' heq
    rcases hwaits l hl with rfl | hl <;> rcases hwaits l' hl' with rfl | hl'
    · rfl
    · rw [Function.update_self, Function.update_of_ne (hold l' hl')] at heq
      exact absurd heq.symm (hearlier l' hl')
    · rw [Function.update_self, Function.update_of_ne (hold l hl)] at heq
      exact absurd heq (hearlier l hl)
    · rw [Function.update_of_ne (hold l hl), Function.update_of_ne (hold l' hl')] at heq
      exact h.distinct l l' hl hl' heq

end ServedInv

theorem servedInv_step
    (t : Served v) (e : Event v) (t' : Served v) (h : ServedInv t)
    (hstep : servedStep conf t e = .ok t') :
    RespondsCached t e t' ∧ ServedInv t' := by
  obtain ⟨main, hmain, rfl⟩ := map_eq_ok hstep
  cases e with
  | dns datagram sa =>
      rcases daemonStep_dns hmain with ⟨hnone, htransaction, hsources⟩ | ⟨⟨q, hq⟩, hsources, hwaits⟩
      · rw [hnone]
        refine ⟨?_, h.direct htransaction hsources⟩
        intro d l hd
        have hmem := mem_sources hd
        rcases hsources with hnil | hdirect
        · rw [hnil] at hmem
          cases hmem
        · rw [hdirect] at hmem
          cases List.mem_singleton.mp hmem
      · rw [hq]
        refine ⟨?_, h.start hsources hwaits⟩
        intro d l hd
        have hmem := mem_sources hd
        rw [hsources] at hmem
        cases hmem
  | p2p now behind datagram sa =>
      refine ⟨?_, h.respond (acts_p2pParse hmain).respondsOnce⟩
      intro d l hd
      rcases merges_p2pParse hmain d l hd with hold | hnew
      · cases hold
      · exact ⟨now, behind, datagram, sa, rfl, hnew⟩
  | cron now resolved =>
      refine ⟨?_, h.respond (acts_p2pCron hmain).inner.respondsOnce⟩
      intro d l hd
      cases (acts_p2pCron hmain).quiet.sent d l hd

/-- In every run, whatever queries, replies and ticks it consists of, each event
has at most one DNS response, sent at once or by the lookup it started, there is
no other response, and a lookup that responds sends the at most eight pairs that
the cache has for its target at that moment, and not without one. -/
theorem dns_answered_once
    (conf : Conf) (now : Int) (identity : List Identity) (rnd : Random) (names : Bytes)
    (events : List (Event v)) (t : Served v)
    (hrun : run (servedStep conf) (servedInit now identity rnd names) events = .ok t) :
    t.answered.Nodup ∧ none ∉ t.answered ∧
      AllSteps RespondsCached (servedStep conf) (servedInit now identity rnd names) events := by
  have hinit : ServedInv (servedInit now identity rnd names : Served v) :=
    { nodup := List.nodup_nil
      answered := fun _ ho => nomatch ho
      waiting := by
        rintro l ⟨lookup, hget, -⟩
        cases hget
      distinct := by
        rintro l l' ⟨lookup, hget, -⟩
        cases hget }
  obtain ⟨hsteps, hinv⟩ := run_always servedInv_step events hinit
  refine ⟨(hinv t hrun).nodup, ?_, hsteps⟩
  intro hmem
  obtain ⟨i, -, heq⟩ := (hinv t hrun).answered _ hmem
  cases heq

/-- Two replies to one lookup and a second query: the lookup responds once, and the
second query is answered from the cache. -/
theorem dns_answered_once_repeated :
    ∃ t, run (servedStep hostsConf)
        (servedInit 0 [] ⟨fun _ => 0, UInt8.ofNat⟩ (List.replicate 256 0))
        [nodePings, asksForA, nodeReplies, nodeReplies, asksForA] = .ok t ∧
      t.answered = [some 1, some 4] ∧ t.answered.Nodup := by
  have hmap : (run (servedStep hostsConf)
        (servedInit 0 [] ⟨fun _ => 0, UInt8.ofNat⟩ (List.replicate 256 0))
        [nodePings, asksForA, nodeReplies, nodeReplies, asksForA]).map Served.answered =
      .ok [some 1, some 4] := by
    decide +kernel
  obtain ⟨t, hrun, hanswered⟩ := map_eq_ok hmap
  exact ⟨t, hrun, hanswered, (dns_answered_once hostsConf 0 [] _ _ _ t hrun).1⟩

end Torrentkino
