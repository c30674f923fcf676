import Torrentkino.P2p.LookupOrder
import Torrentkino.P2p.Messages
import Torrentkino.P2p.ReplyAddress
import Torrentkino.P2p.Stored
import Torrentkino.P2p.TokenLife

/-!
# What the daemon says

Whatever arrives at a daemon and whenever its clock ticks, all that leaves through the
peer-to-peer socket are messages of the protocol, with arguments of the right sizes.  So a
daemon never sends what another daemon takes for broken.

The addresses that it stores and passes on come from other messages.  `Origins` says which
addresses there may be, and the invariant `Sound` that there are no others in the stores,
provided that what arrives is `Credible`.  `Talks` is the relation between the states before and
after a part of an event, that all parts respect.

**Results.**
* `talks_daemonStep`: an event keeps the invariant and sends messages that are in order.
* `sent_messages`
-/

namespace Torrentkino

open Memory Simulation

/-! ## Origins -/

/-- Where addresses come from: the targets that the daemon announces itself, the
pairs that may be announced to it for a target, and the pairs that it may pass on. -/
structure Origins (v : Build) where
  announced : NodeId → Prop
  stored : NodeId → Pair v → Prop
  known : Pair v → Prop
  known_of_stored : ∀ {target pair}, stored target pair → known pair

/-- All addresses are welcome. -/
def Origins.any (v : Build) : Origins v where
  announced _ := True
  stored _ _ := True
  known _ := True
  known_of_stored := fun _ => trivial

/-- A message that says nothing else. -/
def Message.From {v : Build} (conf : Conf) (org : Origins v) : Message v → Prop
  | .query (.announce infoHash port _ _ _) => org.announced infoHash ∧ port = conf.announcePort
  | .query _ => True
  | .answer a =>
      match a.kind with
      | .getPeersValues values _ => ∀ pair ∈ values.pairs, org.known pair
      | _ => True

/-- A packet from this address, whoever reads it, announces and reports only what is true. -/
structure Credible {v : Build} (org : Origins v) (packet : Ben) (sa : Ip v) : Prop where
  announce : ∀ {me head accept infoHash token port}, requestHead me packet = .ok head →
    requestBody accept head.q head.a = .ok (.announce infoHash token port) →
    org.stored infoHash (ipMergePortToSin sa port).pair
  values : ∀ {me head type token values pairs}, replyHead me packet = .ok head →
    replyBody v type head.r = .ok (.getPeersValues token values) →
    valuesPairs v values = some pairs → ∀ pair ∈ pairs, org.known pair

/-- The packet in a datagram is credible, if there is one. -/
def Event.Credible {v : Build} (org : Origins v) : Event v → Prop
  | .p2p _ _ datagram sa =>
      ∀ y packet, messageOf (received datagram) = some (y, packet) →
        Torrentkino.Credible org packet sa
  | _ => True

/-! ## The invariant -/

section Sound

variable {v : Build}

/-- The nodes of a lookup have tokens of a size that can be sent. -/
def Lookup.TokensFit (l : Lookup v) : Prop :=
  ∀ r n, l.nodes.heap.get r = some n → n.token.length ≤ tokenSizeMax

theorem tokensFit_ldbInit (target : NodeId) (query : Option (Ip v × DnsMsg)) :
    (ldbInit target query).TokensFit := by
  intro r n hn
  cases hn

theorem Lookup.TokensFit.ldbPut {l : Lookup v} (h : l.TokensFit) (id : NodeId) (sa : Ip v) :
    (ldbPut l id sa).2.TokensFit := by
  rw [Torrentkino.ldbPut]
  split
  · exact h
  · intro r n hn
    by_cases hr : r = l.nodes.heap.fresh
    · rw [hr] at hn
      cases (Heap.get_alloc_self _ _).symm.trans hn
      exact Nat.zero_le _
    · exact h r n ((Heap.get_alloc_of_ne _ _ hr).symm.trans hn)

theorem Lookup.TokensFit.ldbUpdate {l : Lookup v} (h : l.TokensFit) (id : NodeId) {token : Bytes}
    (htoken : token.length ≤ tokenSizeMax) (sa : Ip v) :
    (ldbUpdate l id token sa).TokensFit := by
  rw [Torrentkino.ldbUpdate]
  split
  · exact h
  · rename_i q _
    intro r n hn
    by_cases hr : r = q
    · subst hr
      rw [Table.modify, Heap.get_modify_self] at hn
      obtain ⟨m, -, rfl⟩ := Option.map_eq_some_iff.mp hn
      exact htoken
    · exact h r n ((Heap.get_modify_of_ne _ _ hr).symm.trans hn)

/-- What the lookups of `p2p_cron_lookup_all` are for is announced. -/
structure Transaction.Announces (T : NodeId → Prop) (t : Transaction v) : Prop where
  /-- A lookup that is created is not one that a transaction already has. -/
  bound : ∀ {ti tid l}, t.tids.heap.get ti = some tid → tid.lookup = some l → l < t.lookups.fresh
  target : ∀ {ti tid l lookup}, t.tids.heap.get ti = some tid → tid.type = .announceStart →
    tid.lookup = some l → t.lookups.get l = some lookup → T lookup.target

/-- The tokens can be sent, and the addresses come from where they should. -/
structure Main.Sound (org : Origins v) (s : Main v) : Prop where
  tokens : ∀ l lookup, s.transaction.lookups.get l = some lookup → lookup.TokensFit
  announces : s.transaction.Announces org.announced
  identity : ∀ i ∈ s.identity, org.announced i.hostId
  value : s.value.All org.stored
  cache : s.cache.All org.known

/-! ## Transactions -/

namespace Transaction.Announces

variable {T : NodeId → Prop} {t : Transaction v}

theorem init : (tdbInit : Transaction v).Announces T where
  bound h := by cases h
  target h := by cases h

theorem tdbPut (h : t.Announces T) (now : Int) (type : TidType) (rnd : Random) :
    (tdbPut now t type rnd).2.1.Announces T := by
  have hget : ∀ {ti tid l}, (Torrentkino.tdbPut now t type rnd).2.1.tids.heap.get ti = some tid →
      tid.lookup = some l → t.tids.heap.get ti = some tid := by
    intro ti tid l hti hl
    by_cases hnew : ti = t.tids.heap.fresh
    · rw [hnew] at hti
      cases (Heap.get_alloc_self _ _).symm.trans hti
      cases hl
    · exact (Heap.get_alloc_of_ne _ _ hnew).symm.trans hti
  constructor
  · intro ti tid l hti hl
    exact h.bound (hget hti hl) hl
  · intro ti tid l lookup hti htype hl hlookup
    exact h.target (hget hti hl) htype hl hlookup

/-- The lookup of a new transaction. -/
theorem link
    (h : t.Announces T) (ti : Ref) (l : Lookup v)
    (hl : ∀ tid, t.tids.heap.get ti = some tid → tid.type = .announceStart → T l.target) :
    (tdbLinkLdb t ti l).Announces T := by
  have hget : ∀ {q tid}, (tdbLinkLdb t ti l).tids.heap.get q = some tid →
      t.tids.heap.get q = some tid ∨
        q = ti ∧ tid.lookup = some t.lookups.fresh ∧
          ∃ tid', t.tids.heap.get ti = some tid' ∧ tid'.type = tid.type := by
    intro q tid hq
    by_cases hti : q = ti
    · subst hti
      obtain ⟨tid', htid', rfl⟩ :=
        Option.map_eq_some_iff.mp ((Heap.get_modify_self _ _ _).symm.trans hq)
      exact .inr ⟨rfl, rfl, tid', htid', rfl⟩
    · exact .inl ((Heap.get_modify_of_ne _ _ hti).symm.trans hq)
  constructor
  · intro q tid r hq hr
    rcases hget hq with hold | ⟨-, hnew, -⟩
    · exact Nat.lt_succ_of_lt (h.bound hold hr)
    · cases hnew.symm.trans hr
      exact Nat.lt_succ_self _
  · intro q tid r lookup hq htype hr hlookup
    rcases hget hq with hold | ⟨-, hnew, tid', htid', htype'⟩
    · have hne : r ≠ t.lookups.fresh := Nat.ne_of_lt (h.bound hold hr)
      exact h.target hold htype hr ((Heap.get_alloc_of_ne _ _ hne).symm.trans hlookup)
    · cases hnew.symm.trans hr
      cases (Heap.get_alloc_self _ _).symm.trans hlookup
      exact hl tid' htid' (htype'.trans htype)

theorem tdbDel (h : t.Announces T) (ti : Ref) : (tdbDel t ti).Announces T := by
  have hget : ∀ {q tid}, (Torrentkino.tdbDel t ti).tids.heap.get q = some tid →
      t.tids.heap.get q = some tid := by
    intro q tid hq
    rw [Torrentkino.tdbDel] at hq
    split at hq
    · exact hq
    · exact Heap.get_of_get_free hq
  constructor
  · intro q tid l hq hl
    rw [fresh_tdbDel]
    exact h.bound (hget hq) hl
  · intro q tid l lookup hq htype hl hlookup
    exact h.target (hget hq) htype hl (get_of_get_tdbDel hlookup)

theorem modifyLookup
    (h : t.Announces T) (l : Ref) {f : Lookup v → Lookup v}
    (hf : ∀ lookup, t.lookups.get l = some lookup → (f lookup).target = lookup.target) :
    (t.modifyLookup l f).Announces T := by
  constructor
  · intro ti tid r hti hr
    exact h.bound hti hr
  · intro ti tid r lookup hti htype hr hlookup
    by_cases hrl : r = l
    · subst hrl
      obtain ⟨m, hm, rfl⟩ :=
        Option.map_eq_some_iff.mp ((Heap.get_modify_self _ _ _).symm.trans hlookup)
      rw [hf m hm]
      exact h.target hti htype hr hm
    · exact h.target hti htype hr ((Heap.get_modify_of_ne _ _ hrl).symm.trans hlookup)

end Transaction.Announces
end Sound

/-! ## Talking -/

/-- A response to a DNS client has known addresses, or none. -/
def Tells {v : Build} (org : Origins v) (raw : Bytes) : Prop :=
  ∃ names msg, raw = (rFailure names msg).out ∨
    ∃ (pairs : List (Pair v)) (w : Writer), (∀ pair ∈ pairs, org.known pair) ∧
      rSuccess v names msg (pairs.flatMap (·.bytes)) = .ok (some w) ∧ raw = w.out

/-- The datagram is in order. -/
def Says {v : Build} (conf : Conf) (org : Origins v) : Sent v → Prop
  | .p2p d => ∃ m : Message v, d.raw = m.raw conf.nodeId ∧ m.From conf org
  | .dns d _ => Tells org d.raw

/-- From a sound state a sound state is reached, and what is sent is in order. -/
def Talks {v : Build} (conf : Conf) (org : Origins v) (s s' : Main v) : Prop :=
  s.Sound org → s'.Sound org ∧ ∃ out, s'.sent = s.sent ++ out ∧ ∀ d ∈ out, Says conf org d

section Talks

variable {v : Build} {conf : Conf} {org : Origins v} {s s' s'' : Main v}

namespace Talks

theorem refl (s : Main v) : Talks conf org s s :=
  fun h => ⟨h, [], (List.append_nil _).symm, fun _ hd => absurd hd List.not_mem_nil⟩

theorem trans (h : Talks conf org s s') (h' : Talks conf org s' s'') : Talks conf org s s'' := by
  intro hsound
  obtain ⟨hsound', out, hsent, hout⟩ := h hsound
  obtain ⟨hsound'', out', hsent', hout'⟩ := h' hsound'
  refine ⟨hsound'', out ++ out', by rw [hsent', hsent, List.append_assoc], fun d hd => ?_⟩
  exact (List.mem_append.mp hd).elim (hout d) (hout' d)

/-- Nothing is sent. -/
theorem silent (hsent : s'.sent = s.sent) (h : s.Sound org → s'.Sound org) :
    Talks conf org s s' := by
  refine fun hsound => ⟨h hsound, [], ?_, fun _ hd => absurd hd List.not_mem_nil⟩
  rw [hsent, List.append_nil]

/-- One datagram is sent, and nothing else changes. -/
theorem single {d : Sent v} (hd : Says conf org d) (s : Main v) :
    Talks conf org s { s with sent := s.sent ++ [d] } := by
  refine fun h => ⟨⟨h.tokens, h.announces, h.identity, h.value, h.cache⟩, [d], rfl, ?_⟩
  rintro _ hmem
  rw [List.mem_singleton.mp hmem]
  exact hd

theorem foldl {α : Type} {f : Main v → α → Main v} (hf : ∀ s a, Talks conf org s (f s a))
    (l : List α) (s : Main v) : Talks conf org s (l.foldl f s) :=
  foldl_rel refl trans hf l s

end Talks

/-- The parts of the state that have nothing to do with it. -/
theorem talks_other
    (htransaction : s'.transaction = s.transaction) (hidentity : s'.identity = s.identity)
    (hvalue : s'.value = s.value) (hcache : s'.cache = s.cache) (hsent : s'.sent = s.sent) :
    Talks conf org s s' := by
  refine .silent hsent fun h => ?_
  constructor
  · rw [htransaction]
    exact h.tokens
  · rw [htransaction]
    exact h.announces
  · rw [hidentity]
    exact h.identity
  · rw [hvalue]
    exact h.value
  · rw [hcache]
    exact h.cache

theorem talks_send {m : Message v} (hm : m.From conf org) (sa : Ip v) (s : Main v) :
    Talks conf org s (s.send (sendUdp sa (m.dict conf.nodeId))) := by
  have hsend : s.send (sendUdp sa (m.dict conf.nodeId)) =
      { s with sent := s.sent ++ [.p2p ⟨sa, m.raw conf.nodeId⟩] } := by
    rw [Main.send, sendUdp, benEnc_eq]
    rfl
  have hsays : Says conf org (.p2p ⟨sa, m.raw conf.nodeId⟩) := ⟨m, rfl, hm⟩
  rw [hsend]
  exact .single hsays s

theorem talks_modifyLookup (l : Ref) {f : Lookup v → Lookup v}
    (hf : ∀ lookup, s.transaction.lookups.get l = some lookup → lookup.TokensFit →
      (f lookup).TokensFit ∧ (f lookup).target = lookup.target) :
    Talks conf org s (s.modifyLookup l f) := by
  refine .silent rfl fun h => ⟨fun r lookup hr => ?_, ?_, h.identity, h.value, h.cache⟩
  · by_cases hrl : r = l
    · subst hrl
      obtain ⟨m, hm, rfl⟩ := Option.map_eq_some_iff.mp ((Heap.get_modify_self _ _ _).symm.trans hr)
      exact (hf m hm (h.tokens r m hm)).1
    · exact h.tokens r lookup ((Heap.get_modify_of_ne _ _ hrl).symm.trans hr)
  · exact h.announces.modifyLookup l fun lookup hl => (hf lookup hl (h.tokens l lookup hl)).2

theorem talks_ldbUpdate
    (l : Ref) (id : NodeId) {token : Bytes} (htoken : token.length ≤ tokenSizeMax) (sa : Ip v)
    (s : Main v) :
    Talks conf org s (s.modifyLookup l fun lookup => ldbUpdate lookup id token sa) :=
  talks_modifyLookup l fun lookup _ hfit =>
    ⟨hfit.ldbUpdate id htoken sa, target_ldbUpdate lookup id token sa⟩

theorem talks_tdbDel (s : Main v) (ti : Ref) :
    Talks conf org s { s with transaction := tdbDel s.transaction ti } :=
  .silent rfl fun h =>
    ⟨fun l lookup hl => h.tokens l lookup (get_of_get_tdbDel hl), h.announces.tdbDel ti,
      h.identity, h.value, h.cache⟩

theorem talks_nbhdPut (s : Main v) (id : NodeId) (sa : Ip v) :
    Talks conf org s (s.nbhdPut conf id sa) :=
  talks_other rfl rfl rfl rfl rfl

/-! ## Queries -/

/-- The values of a target as an argument of a reply. -/
theorem exists_valueList_pairs
    (s : Value v) (target : NodeId) (hpos : (valCompactList s target).length > 0) :
    ∃ values : ValueList v, values.pairs = valCompactPairs s target := by
  refine ⟨⟨valCompactPairs s target, ?_, ?_⟩, rfl⟩
  · by_contra hnil
    have hnil : valCompactPairs s target = [] := by simpa using hnil
    rw [valCompactList, hnil] at hpos
    exact absurd hpos (Nat.lt_irrefl 0)
  · rw [valCompactPairs]
    split
    · exact Nat.zero_le _
    · rw [List.length_map]
      exact List.length_take_le _ _

/-- The token that is handed out. -/
theorem exists_handedToken {token : Token} {id : Bytes} (h : tknRead token = some id) :
    ∃ handed : HandedToken, handed.bytes = id := by
  have hlen := length_tknRead h
  exact ⟨⟨id, by rw [hlen, tokenSize]; omega, by rw [hlen]; decide⟩, rfl⟩

theorem talks_handleRequest
    {id : NodeId} {t : Bytes} (ht : t.length ≤ tidSizeMax) {sa : Ip v} {r : Request}
    (hr : ∀ infoHash token port, r = .announce infoHash token port →
      org.stored infoHash (ipMergePortToSin sa port).pair)
    (h : handleRequest conf s id t sa r = .ok s') : Talks conf org s s' := by
  let tid : EchoedTid := ⟨t, Nat.zero_le _, ht⟩
  cases r with
  | ping =>
      cases h
      exact talks_send (m := .answer ⟨.pong, tid⟩) trivial sa s
  | findNode target =>
      simp only [handleRequest, Except.ok.injEq, p2pFindNodeGetRequest] at h
      split at h
      · rename_i hpos
        obtain ⟨nodes, hbytes, -⟩ := exists_nodeList s.nbhd.heap s.nbhd.bucket target
          (List.length_pos_iff.mp hpos)
        cases h
        rw [← hbytes]
        exact talks_send (m := .answer ⟨.findNode nodes, tid⟩) trivial sa s
      · cases h
        exact .refl _
  | getPeers infoHash =>
      simp only [handleRequest, p2pGetPeersGetRequest] at h
      split at h
      · rename_i hpos
        obtain ⟨values, hpairs⟩ := exists_valueList_pairs s.value infoHash hpos
        have hbytes : values.bytes = valCompactList s.value infoHash := by
          rw [ValueList.bytes, hpairs, valCompactList]
        rw [sendGetPeersValues] at h
        split at h
        · cases h
        · rename_i token htoken
          obtain ⟨handed, rfl⟩ := exists_handedToken htoken
          cases h
          rw [← hbytes]
          intro hsound
          refine talks_send (m := .answer ⟨.getPeersValues values handed, tid⟩) ?_ sa s hsound
          intro pair hpair
          rw [hpairs] at hpair
          exact org.known_of_stored (hsound.value.valCompactPairs hpair)
      split at h
      · rename_i hpos
        obtain ⟨nodes, hbytes, -⟩ := exists_nodeList s.nbhd.heap s.nbhd.bucket infoHash
          (List.length_pos_iff.mp hpos)
        rw [sendGetPeersNodes] at h
        split at h
        · cases h
        · rename_i token htoken
          obtain ⟨handed, rfl⟩ := exists_handedToken htoken
          cases h
          rw [← hbytes]
          exact talks_send (m := .answer ⟨.getPeersNodes nodes handed, tid⟩) trivial sa s
      · cases h
        exact .refl _
  | announce infoHash token port =>
      cases h
      have hput : Talks conf org s { s with
          value := (valPut conf.nodeId s.now s.value infoHash id port sa).1 } := by
        refine .silent rfl fun hsound => ⟨hsound.tokens, hsound.announces, hsound.identity, ?_,
          hsound.cache⟩
        exact hsound.value.valPut conf.nodeId s.now id (hr infoHash token port rfl)
      exact hput.trans (talks_send (m := .answer ⟨.announce, tid⟩) trivial _ _)

theorem talks_p2pRequest
    {behind : Bytes} {packet : Ben} {sa : Ip v} (hcredible : Credible org packet sa)
    (h : p2pRequest conf behind s packet sa = .ok s') : Talks conf org s s' := by
  rw [p2pRequest] at h
  split at h
  · cases h
    exact .refl _
  · rename_i head hhead
    dsimp only at h
    split at h
    · cases h
      exact talks_nbhdPut s head.id sa
    · rename_i r hbody
      refine (talks_nbhdPut s head.id sa).trans
        (talks_handleRequest (requestHead_eq_ok hhead).2.2 ?_ h)
      rintro infoHash token port rfl
      exact hcredible.announce hhead hbody

/-! ## Replies -/

/-- The transaction id of a reply has the size of the node's own ids. -/
theorem replyHead_length
    {me : NodeId} {packet : Ben} {head : ReplyHead} (h : replyHead me packet = .ok head) :
    head.t.length = tidSize := by
  rw [replyHead] at h
  split at h
  · repeat' split at h
    all_goals first
      | cases h; done
      | (rename_i hlen; cases h; exact not_ne_iff.mp hlen)
  · cases h

/-- The token of a reply has been checked. -/
def Reply.TokenFits : Reply → Prop
  | .getPeersNodes token _ | .getPeersValues token _ => token.length ≤ tokenSizeMax
  | _ => True

theorem getPeersArgs_tokenFits {arg : Ben} {r : Reply} (h : getPeersArgs v arg = .ok r) :
    r.TokenFits := by
  rw [getPeersArgs] at h
  split at h
  · cases h
  split at h
  · cases h
  rename_i hle
  split at h
  · cases h
  split at h
  · cases h
    exact Nat.not_lt.mp hle
  · cases h
  split at h
  · cases h
  · obtain ⟨nodes, -, rfl⟩ := map_eq_ok h
    exact Nat.not_lt.mp hle

theorem replyBody_tokenFits {type : TidType} {arg : Ben} {r : Reply}
    (h : replyBody v type arg = .ok r) : r.TokenFits := by
  cases type with
  | ping | pingMulticast | announceEngage =>
      cases h
      trivial
  | findNode =>
      obtain ⟨nodes, -, rfl⟩ := map_eq_ok h
      trivial
  | getPeers | announceStart =>
      exact getPeersArgs_tokenFits h

theorem talks_getNodesQuery
    (l : Ref) {tid : Bytes} (htid : tid.length = tidSize) (s : Main v) (node : NodeId × Ip v) :
    Talks conf org s (getNodesQuery conf l tid s node) := by
  rw [getNodesQuery]
  split
  · exact .refl _
  split
  · exact .refl _
  refine (talks_nbhdPut s node.1 node.2).trans ?_
  dsimp only
  split
  · exact .refl _
  rename_i lookup hlookup
  split
  · exact .refl _
  have hput : Talks conf org (s.nbhdPut conf node.1 node.2)
      ((s.nbhdPut conf node.1 node.2).modifyLookup l fun _ => (ldbPut lookup node.1 node.2).2) := by
    refine talks_modifyLookup l fun lookup' hlookup' hfit => ?_
    cases hlookup.symm.trans hlookup'
    exact ⟨hfit.ldbPut node.1 node.2, target_ldbPut lookup node.1 node.2⟩
  split
  · exact hput
  · exact hput.trans (talks_send (m := .query (.getPeers lookup.target
      ⟨tid, Nat.le_of_eq htid.symm, Nat.le_of_eq htid⟩)) trivial node.2 _)

/-- A response with known addresses. -/
theorem talks_rSuccess
    {lookup : Option Ref} {sa : Ip v} {msg : DnsMsg} {list : List (Pair v)}
    (hlist : ∀ pair ∈ list, org.known pair) (h : s.rSuccess lookup sa msg list = .ok s') :
    Talks conf org s s' := by
  rw [Main.rSuccess] at h
  split at h
  · cases h
  · cases h
    exact .refl _
  · rename_i w hw
    cases h
    have hsays : Says conf org (.dns ⟨sa, w.out⟩ lookup) :=
      ⟨s.names, msg, .inr ⟨list, w, hlist, hw, rfl⟩⟩
    exact .single hsays s

theorem talks_cacheCompactList (s : Main v) (target : NodeId) :
    Talks conf org s { s with cache := (cacheCompactList s.now s.cache target).2 } :=
  .silent rfl fun h =>
    ⟨h.tokens, h.announces, h.identity, h.value, (h.cache.cacheCompactList s.now target).2⟩

theorem talks_answerInitiator
    {l : Ref} {lookup : Lookup v} {pairs : List (Pair v)} (hpairs : ∀ pair ∈ pairs, org.known pair)
    (h : answerInitiator s l lookup pairs = .ok s') : Talks conf org s s' := by
  simp only [answerInitiator] at h
  have hput : Talks conf org s { s with
      cache := (cachePut s.now s.cache lookup.target pairs s.random).1
      random := (cachePut s.now s.cache lookup.target pairs s.random).2 } :=
    .silent rfl fun h => ⟨h.tokens, h.announces, h.identity, h.value,
      h.cache.cachePut s.now lookup.target hpairs s.random⟩
  refine hput.trans ?_
  generalize ({ s with
    cache := (cachePut s.now s.cache lookup.target pairs s.random).1
    random := (cachePut s.now s.cache lookup.target pairs s.random).2 } : Main v) = s₁ at h ⊢
  have hcount : Talks conf org s₁
      (s₁.modifyLookup l fun lookup => (ldbNumberOfDnsResponses lookup).2) :=
    talks_modifyLookup l fun _ _ hfit => ⟨hfit, rfl⟩
  refine hcount.trans ?_
  generalize (s₁.modifyLookup l fun lookup => (ldbNumberOfDnsResponses lookup).2) = s₂ at h ⊢
  split at h
  · cases h
    exact .refl _
  have hcache : Talks conf org s₂
      { s₂ with cache := (cacheCompactList s₂.now s₂.cache lookup.target).2 } :=
    talks_cacheCompactList s₂ lookup.target
  split at h
  · cases h
    exact hcache
  · intro hsound
    exact hcache.trans (talks_rSuccess (hsound.cache.cacheCompactList s₂.now lookup.target).1 h)
      hsound

theorem talks_handleReply
    {id : NodeId} {ti : Ref} {tid : Bytes} (htid : tid.length = tidSize) {sa : Ip v} {r : Reply}
    (hr : r.TokenFits)
    (hvalues : ∀ token values pairs, r = .getPeersValues token values →
      valuesPairs v values = some pairs → ∀ pair ∈ pairs, org.known pair)
    (h : handleReply conf s id ti tid sa r = .ok s') : Talks conf org s s' := by
  cases r with
  | pong =>
      cases h
      rw [p2pPong]
      split
      · exact talks_other rfl rfl rfl rfl rfl
      · exact .refl _
  | findNode nodes =>
      cases h
      refine .foldl (fun s node => ?_) _ _
      rw [findNodeStore]
      split
      · exact .refl _
      split
      · exact .refl _
      · exact talks_nbhdPut s node.1 node.2
  | getPeersNodes token nodes =>
      cases h
      rw [p2pGetPeersGetNodes]
      split
      · exact .refl _
      · rename_i l lookup _
        exact (talks_ldbUpdate l id hr sa s).trans (.foldl (talks_getNodesQuery l htid) _ _)
  | getPeersValues token values =>
      rcases p2pGetPeersGetValues_cases h with rfl | ⟨l, lookup, -, hrest⟩
      · exact .refl _
      rcases hrest with rfl | ⟨pairs, hpairs, -, -, hanswer⟩
      · exact talks_ldbUpdate l id hr sa s
      · exact (talks_ldbUpdate l id hr sa s).trans
          (talks_answerInitiator (hvalues token values pairs rfl hpairs) hanswer)
  | announce =>
      cases h
      exact .refl _

theorem talks_replyCleanup (type : TidType) (ti : Ref) (s : Main v) :
    Talks conf org s (replyCleanup type ti s) := by
  cases type with
  | ping | findNode | announceEngage => exact talks_tdbDel s ti
  | pingMulticast | getPeers | announceStart => exact .refl _

theorem talks_p2pReply
    {packet : Ben} {sa : Ip v} (hcredible : Credible org packet sa)
    (h : p2pReply conf s packet sa = .ok s') : Talks conf org s s' := by
  rcases p2pReply_cases h with
    ⟨rfl, -⟩ | ⟨head, hhead, ⟨rfl, -⟩ | ⟨ti, type, s₁, -, -, hhandled, rfl⟩⟩
  · exact .refl _
  · exact talks_nbhdPut s head.id sa
  refine Talks.trans ?_ (talks_replyCleanup type ti s₁)
  rcases hhandled with rfl | ⟨reply, hreply, hrun⟩
  · exact talks_nbhdPut s head.id sa
  · refine (talks_nbhdPut s head.id sa).trans (talks_handleReply (replyHead_length hhead)
      (replyBody_tokenFits hreply) ?_ hrun)
    rintro token values pairs rfl hpairs
    exact hcredible.values hhead hreply hpairs

/-- A datagram on the peer-to-peer socket. -/
theorem talks_p2pParse
    {behind : Bytes} {now : Int} {bencode : Raw} {sa : Ip v}
    (hcredible : ∀ y packet, messageOf bencode = some (y, packet) → Credible org packet sa)
    (h : p2pParse conf behind now s bencode sa = .ok s') : Talks conf org s s' := by
  have hclock : Talks conf org s { s with p2p := { s.p2p with timeNow := now } } :=
    talks_other rfl rfl rfl rfl rfl
  rcases p2pParse_cases h with rfl | ⟨-, -, packet, ⟨hmessage, hrun⟩ | ⟨hmessage, hrun⟩⟩
  · exact hclock
  · exact hclock.trans (talks_p2pRequest (hcredible _ _ hmessage) hrun)
  · exact hclock.trans (talks_p2pReply (hcredible _ _ hmessage) hrun)

/-! ## Lookups and periodic tasks -/

/-- A new transaction has an id of the right size. -/
theorem length_tdbPut (s : Main v) (type : TidType) : (s.tdbPut type).1.2.length = tidSize :=
  length_randUnused _ _ _ _

/-- The id of a new transaction, as an argument of a query. -/
def newTid (s : Main v) (type : TidType) : OwnTid :=
  ⟨(s.tdbPut type).1.2, Nat.le_of_eq (length_tdbPut s type).symm,
    Nat.le_of_eq (length_tdbPut s type)⟩

theorem talks_tdbPut (s : Main v) (type : TidType) : Talks conf org s (s.tdbPut type).2 :=
  .silent rfl fun h =>
    ⟨h.tokens, h.announces.tdbPut s.now type s.random, h.identity, h.value, h.cache⟩

/-- A lookup for an announce is for a target that is announced. -/
theorem talks_startLookup
    (s : Main v) (target : NodeId) (type : TidType) (query : Option (Ip v × DnsMsg))
    (htarget : type = .announceStart → org.announced target) :
    Talks conf org s (startLookup conf s target type query) := by
  have hlink : Talks conf org (s.tdbPut type).2 { (s.tdbPut type).2 with
      transaction := tdbLinkLdb (s.tdbPut type).2.transaction (s.tdbPut type).1.1
        (ldbInit target query) } := by
    refine .silent rfl fun h => ⟨fun l lookup hl => ?_, ?_, h.identity, h.value, h.cache⟩
    · by_cases hnew : l = (s.tdbPut type).2.transaction.lookups.fresh
      · rw [hnew] at hl
        cases (Heap.get_alloc_self _ _).symm.trans hl
        exact tokensFit_ldbInit target query
      · exact h.tokens l lookup ((Heap.get_alloc_of_ne _ _ hnew).symm.trans hl)
    · refine h.announces.link _ _ fun tid htid htype => htarget ?_
      cases (Heap.get_alloc_self _ _).symm.trans htid
      exact htype
  refine ((talks_tdbPut s type).trans hlink).trans (.foldl (fun s' node => ?_) _ _)
  have hput : ∀ l, Talks conf org s'
      (s'.modifyLookup l fun lookup => (ldbPut lookup node.1 node.2).2) :=
    fun l => talks_modifyLookup l fun lookup _ hfit =>
      ⟨hfit.ldbPut node.1 node.2, target_ldbPut lookup node.1 node.2⟩
  exact (hput _).trans
    (talks_send (m := .query (.getPeers target (newTid s type))) trivial node.2 _)

theorem talks_announceTo
    (hport : 1 ≤ conf.announcePort ∧ conf.announcePort ≤ 65535) {target : NodeId}
    (htarget : org.announced target) (s : Main v) {n : NodeL v}
    (hle : n.token.length ≤ tokenSizeMax) (hne : n.token ≠ []) :
    Talks conf org s (announceTo conf target s n) :=
  (talks_tdbPut s .announceEngage).trans (talks_send (m := .query (.announce target
    conf.announcePort hport ⟨n.token, List.length_pos_iff.mpr hne, hle⟩
    (newTid s .announceEngage))) ⟨htarget, rfl⟩ n.cAddr _)

theorem talks_p2pCronAnnounce
    (hport : 1 ≤ conf.announcePort ∧ conf.announcePort ≤ 65535) {ti : Ref} {tid : Tid}
    (hti : s.transaction.tids.heap.get ti = some tid) (htype : tid.type = .announceStart) :
    Talks conf org s (p2pCronAnnounce conf s ti) := by
  rw [p2pCronAnnounce]
  split
  · exact .refl _
  · rename_i l lookup hlookup
    intro hsound
    have hget := get_of_lookupOf hlookup
    have htarget : org.announced lookup.target := by
      obtain ⟨l', hl', hmap⟩ := Option.bind_eq_some_iff.mp hlookup
      obtain ⟨lookup', hget', heq⟩ := Option.map_eq_some_iff.mp hmap
      cases heq
      obtain ⟨tid', htid', hl⟩ := Option.bind_eq_some_iff.mp hl'
      cases hti.symm.trans htid'
      exact hsound.announces.target hti htype hl hget'
    have hnodes : ∀ n ∈ (lookup.nodes.objects.filter fun n => n.token ≠ []).take 8,
        n.token.length ≤ tokenSizeMax ∧ n.token ≠ [] := by
      intro n hn
      obtain ⟨hobject, htoken⟩ := List.mem_filter.mp (List.mem_of_mem_take hn)
      obtain ⟨r, -, hr⟩ := List.mem_filterMap.mp hobject
      exact ⟨hsound.tokens l lookup hget r n hr, by simpa using htoken⟩
    revert hsound
    generalize (lookup.nodes.objects.filter fun n => n.token ≠ []).take 8 = nodes at hnodes
    clear hlookup hget hti
    change Talks conf org s (nodes.foldl (announceTo conf lookup.target) s)
    induction nodes generalizing s with
    | nil =>
        exact .refl _
    | cons n nodes ih =>
        obtain ⟨hle, hne⟩ := hnodes n List.mem_cons_self
        exact (talks_announceTo hport htarget s hle hne).trans
          (ih fun m hm => hnodes m (List.mem_cons_of_mem n hm))

theorem talks_tdbExpire (hport : 1 ≤ conf.announcePort ∧ conf.announcePort ≤ 65535)
    (h : tdbExpire conf s = .ok s') : Talks conf org s s' := by
  refine tdbExpireLoop_rel Talks.refl Talks.trans (fun s ti => ?_) h
  rcases tdbExpireItem_cases conf s ti with heq | ⟨tid, s₁, htid, -, hs₁, heq⟩
  · rw [heq]
    exact .refl _
  rw [heq]
  refine Talks.trans ?_ (talks_tdbDel s₁ ti)
  rcases hs₁ with ⟨htype, rfl⟩ | ⟨-, rfl⟩
  · exact talks_p2pCronAnnounce hport htid htype
  · exact .refl _

theorem talks_cronExpire (hport : 1 ≤ conf.announcePort ∧ conf.announcePort ≤ 65535)
    (h : cronExpire conf s = .ok s') : Talks conf org s s' := by
  obtain ⟨s₁, hexpire, rfl⟩ := map_eq_ok h
  refine (talks_tdbExpire hport hexpire).trans ?_
  exact .silent rfl fun h => ⟨h.tokens, h.announces, h.identity, h.value.valExpire s₁.now,
    h.cache.cacheExpire s₁.now⟩

theorem talks_sendPing (sa : Ip v) (type : TidType) (s : Main v) :
    Talks conf org s (sendPing conf (s.tdbPut type).2 sa (s.tdbPut type).1.2) :=
  (talks_tdbPut s type).trans (talks_send (m := .query (.ping (newTid s type))) trivial sa _)

theorem talks_p2pCronPing (s : Main v) : Talks conf org s (p2pCronPing conf s) := by
  have hpinged : ∀ (s : Main v) (id : NodeId), Talks conf org s (s.nbhdPinged id) := by
    intro s id
    rw [Main.nbhdPinged]
    split
    · exact talks_other rfl rfl rfl rfl rfl
    · exact .refl _
  refine .foldl (fun s node => ?_) _ _
  rw [cronPingNode]
  split
  · exact .refl _
  rename_i n _
  split
  · split
    · exact (talks_sendPing n.cAddr .ping s).trans (hpinged _ n.id)
    · exact hpinged s n.id
  · exact .refl _

theorem talks_p2pCronFind (s : Main v) (target : NodeId) :
    Talks conf org s (p2pCronFind conf s target) := by
  rw [p2pCronFind]
  split
  · exact .refl _
  refine .foldl (fun s r => ?_) _ _
  rw [cronFindNode]
  split
  · exact .refl _
  rename_i n _
  split
  · have hsend : Talks conf org s (sendFindNodeRequest conf (s.tdbPut .findNode).2 n.cAddr target
        (s.tdbPut .findNode).1.2) :=
      (talks_tdbPut s .findNode).trans (talks_send
        (m := .query (.findNode target (newTid s .findNode))) trivial n.cAddr _)
    exact hsend.trans (talks_other rfl rfl rfl rfl rfl)
  · exact .refl _

/-- The hostnames of the node are announced, and stay the same. -/
theorem talks_cronLookupAll
    {done rest : List Identity} (hids : ∀ i ∈ done ++ rest, org.announced i.hostId) (s : Main v) :
    Talks conf org s (cronLookupAll conf done rest s) := by
  induction rest generalizing done s with
  | nil =>
      rw [List.append_nil] at hids
      exact .silent rfl fun h => ⟨h.tokens, h.announces, hids, h.value, h.cache⟩
  | cons identity rest ih =>
      have hrest : ∀ time, ∀ i ∈ done ++ [{ identity with timeAnnounceHost := time }] ++ rest,
          org.announced i.hostId := by
        intro time i hi
        rcases List.mem_append.mp hi with hi | hi
        · rcases List.mem_append.mp hi with hi | hi
          · exact hids i (List.mem_append_left _ hi)
          · cases List.mem_singleton.mp hi
            exact hids identity (List.mem_append_right _ List.mem_cons_self)
        · exact hids i (List.mem_append_right _ (List.mem_cons_of_mem _ hi))
      rw [cronLookupAll]
      split
      · refine Talks.trans ?_ (ih (hrest _) _)
        refine Talks.trans (talks_startLookup s identity.hostId .announceStart none fun _ => ?_) ?_
        · exact hids identity (List.mem_append_right _ List.mem_cons_self)
        · exact talks_other rfl rfl rfl rfl rfl
      · exact ih (hrest identity.timeAnnounceHost) _

theorem talks_cacheRenew (s : Main v) : Talks conf org s (cacheRenew conf s) := by
  refine .foldl (fun s r => ?_) _ _
  rw [cacheRenewTarget]
  split
  · exact .refl _
  rename_i t _
  split
  · refine Talks.trans (talks_startLookup s t.target .getPeers none fun htype => ?_) ?_
    · cases htype
    · exact .silent rfl fun h =>
        ⟨h.tokens, h.announces, h.identity, h.value, h.cache.modify rfl fun _ => rfl⟩
  · exact .refl _

theorem talks_periodic
    {due : P2p → Int} {setDue : P2p → Int → P2p} {again : Int → Random → Int × Random}
    {task : Main v → Except Fault (Main v)}
    (h : periodic due setDue again task s = .ok s')
    (htask : ∀ {s s'}, task s = .ok s' → Talks conf org s s') : Talks conf org s s' := by
  rcases periodic_cases h with ⟨-, rfl⟩ | ⟨-, s₁, hrun, rfl⟩
  · exact .refl _
  · exact (htask hrun).trans (talks_other rfl rfl rfl rfl rfl)

theorem talks_cronTasks
    (hport : 1 ≤ conf.announcePort ∧ conf.announcePort ≤ 65535)
    {task : Main v → Except Fault (Main v)} (htask : task ∈ cronTasks conf)
    (h : task s = .ok s') : Talks conf org s s' := by
  simp only [cronTasks, List.mem_cons, List.not_mem_nil, or_false] at htask
  rcases htask with rfl | rfl | rfl | rfl | rfl | rfl | rfl | rfl
  · refine talks_periodic h fun hrun => ?_
    cases hrun
    exact talks_other rfl rfl rfl rfl rfl
  · exact talks_periodic h (talks_cronExpire hport)
  · refine talks_periodic h fun hrun => ?_
    rw [cronSplit] at hrun
    split at hrun
    · cases hrun
    · cases hrun
      exact talks_other rfl rfl rfl rfl rfl
  · refine talks_periodic h fun hrun => ?_
    cases hrun
    exact talks_p2pCronFind _ _
  · refine talks_periodic h fun hrun => ?_
    cases hrun
    rw [p2pCronFindRandom]
    refine Talks.trans ?_ (talks_p2pCronFind _ _)
    exact talks_other rfl rfl rfl rfl rfl
  · refine talks_periodic h fun hrun => ?_
    cases hrun
    exact fun hsound => talks_cronLookupAll hsound.identity _ hsound
  · refine talks_periodic h fun hrun => ?_
    cases hrun
    exact talks_p2pCronPing _
  · refine talks_periodic h fun hrun => ?_
    cases hrun
    exact talks_cacheRenew _

/-- A tick of the clock. -/
theorem talks_p2pCron
    (hport : 1 ≤ conf.announcePort ∧ conf.announcePort ≤ 65535) {now : Int}
    {resolved : List (List (Ip v))} (h : p2pCron conf now resolved s = .ok s') :
    Talks conf org s s' := by
  have hclock : Talks conf org s { s with p2p := { s.p2p with timeNow := now } } :=
    talks_other rfl rfl rfl rfl rfl
  refine hclock.trans ?_
  rw [p2pCron] at h
  split at h
  · refine talks_periodic h fun hrun => ?_
    cases hrun
    rw [p2pBootstrap]
    split
    · exact .refl _
    · exact .foldl (fun s sa => talks_sendPing sa _ s) _ _
  · exact foldlM_rel Talks.refl Talks.trans (fun task htask => talks_cronTasks hport htask) h

/-! ## DNS queries -/

theorem talks_rLookup
    {hostname : Bytes} {sa : Ip v} {msg : DnsMsg} (h : rLookup conf s hostname sa msg = .ok s') :
    Talks conf org s s' := by
  intro hsound
  rw [rLookup] at h
  dsimp only at h
  generalize idHostid conf hostname = target at h
  have hcache : Talks conf org s { s with cache := (cacheCompactList s.now s.cache target).2 } :=
    talks_cacheCompactList s target
  split at h
  · exact hcache.trans (talks_rSuccess (hsound.cache.cacheCompactList s.now target).1 h) hsound
  split at h
  · refine hcache.trans (talks_rSuccess (fun pair hpair => ?_) h) hsound
    exact org.known_of_stored (hsound.value.valCompactPairs hpair)
  · cases h
    refine hcache.trans (talks_startLookup _ _ _ _ fun htype => ?_) hsound
    cases htype

theorem talks_rParse
    {mem : Mem} {bufsize : Nat} {sa : Ip v} (h : s.rParse conf mem bufsize sa = .ok s') :
    Talks conf org s s' := by
  simp only [Main.rParse] at h
  generalize rParse s.names mem bufsize sa = parsed at h
  have hnames : Talks conf org s { s with names := parsed.2 } := talks_other rfl rfl rfl rfl rfl
  refine hnames.trans ?_
  split at h
  · cases h
    exact .refl _
  · exact talks_rLookup h
  · rename_i msg _
    cases h
    have hsays : Says conf org (.dns ⟨sa, (rFailure parsed.2 msg).out⟩ none) :=
      ⟨parsed.2, msg, .inl rfl⟩
    exact .single hsays _

/-! ## Runs -/

theorem talks_daemonStep
    (hport : 1 ≤ conf.announcePort ∧ conf.announcePort ≤ 65535) {e : Event v}
    (hcredible : e.Credible org) (h : daemonStep conf s e = .ok s') :
    Talks conf org { s with sent := [] } s' := by
  cases e with
  | dns datagram sa => exact talks_rParse h
  | p2p now behind datagram sa => exact talks_p2pParse hcredible h
  | cron now resolved => exact talks_p2pCron hport h

theorem sound_mainInit
    {identity : List Identity} (hids : ∀ i ∈ identity, org.announced i.hostId) (now : Int)
    (rnd : Random) (names : Bytes) : (mainInit now identity rnd names : Main v).Sound org where
  tokens := by
    intro l lookup hl
    cases hl
  announces := Transaction.Announces.init
  identity := hids
  value := value_all_valInit
  cache := cache_all_cacheInit

/-- What the daemon sends from a sound state. -/
theorem Main.Sound.step
    (h : s.Sound org) (hport : 1 ≤ conf.announcePort ∧ conf.announcePort ≤ 65535) {e : Event v}
    (hcredible : e.Credible org) (hstep : daemonStep conf s e = .ok s') :
    s'.Sound org ∧ ∀ d ∈ s'.sent, Says conf org d := by
  have hcleared : ({ s with sent := [] } : Main v).Sound org :=
    ⟨h.tokens, h.announces, h.identity, h.value, h.cache⟩
  obtain ⟨hsound, out, hsent, hout⟩ := talks_daemonStep hport hcredible hstep hcleared
  rw [List.nil_append] at hsent
  exact ⟨hsound, hsent ▸ hout⟩

theorem Event.credible_any (e : Event v) : e.Credible (.any v) := by
  cases e with
  | p2p now behind datagram sa =>
      exact fun _ _ _ => ⟨fun _ _ => trivial, fun _ _ _ _ _ => trivial⟩
  | dns _ _ | cron _ _ =>
      trivial

theorem sound_any_run
    (hport : 1 ≤ conf.announcePort ∧ conf.announcePort ≤ 65535) {now : Int}
    {identity : List Identity} {rnd : Random} {names : Bytes} {events : List (Event v)}
    (h : run (daemonStep conf) (mainInit now identity rnd names) events = .ok s) :
    s.Sound (.any v) :=
  run_keeps (fun _ e _ hsound hstep => (hsound.step hport e.credible_any hstep).1) h
    (sound_mainInit (fun _ _ => trivial) now rnd names)

/-- In every run of a daemon that announces a port, each datagram that it sends to another daemon is
a message of the protocol with its own id.  It has 20 to 512 bytes, the validator of
every receiver accepts it, and the receiver decodes what was put in. -/
theorem sent_messages
    (hport : 1 ≤ conf.announcePort ∧ conf.announcePort ≤ 65535) {now : Int}
    {identity : List Identity} {rnd : Random} {names : Bytes} {events : List (Event v)}
    (hrun : run (daemonStep conf) (mainInit now identity rnd names) events = .ok s) {e : Event v}
    (hstep : daemonStep conf s e = .ok s') {d : Datagram v} (hd : .p2p d ∈ s'.sent)
    (after : Bytes) :
    20 ≤ d.raw.length ∧ d.raw.length ≤ 512 ∧
      benValidate ⟨buffer d.raw after, d.raw.length⟩ = some d.raw.length ∧
      ∃ m : Message v, d.raw = m.raw conf.nodeId ∧
        benDec ⟨buffer d.raw after, d.raw.length⟩ =
          .ok (some (m.dict conf.nodeId), d.raw.length) := by
  obtain ⟨-, hsays⟩ := (sound_any_run hport hrun).step hport e.credible_any hstep
  obtain ⟨m, hm, -⟩ := hsays _ hd
  rw [hm]
  obtain ⟨-, hvalid, hdec⟩ := benDec_benEnc (m.bounded_dict conf.nodeId) after
  exact ⟨m.le_length_raw conf.nodeId, m.length_raw_le conf.nodeId, hvalid, m, rfl, hdec⟩

end Talks

/-- Two nodes make themselves known. -/
def twoPings : List (Event .ipv4) :=
  [.p2p 0 [] (benEncRec (pingDict (.all 2) [0, 0, 0, 2])) (.ofQuad 10 0 0 2 (26, 225)),
    .p2p 1 [] (benEncRec (pingDict (.all 3) [0, 0, 0, 3])) (.ofQuad 10 0 0 3 (26, 225))]

/-- A third one asks for nodes. -/
def asksForNodes : Event .ipv4 :=
  .p2p 2 [] (benEncRec (findNodeRequestDict (.all 4) .zero [0, 0, 0, 4]))
    (.ofQuad 10 0 0 4 (26, 225))

/-- What it gets: the two nodes and itself. -/
def nodesReply : Datagram .ipv4 :=
  ⟨.ofQuad 10 0 0 4 (26, 225),
    benEncRec (findNodeReplyDict .ipv4 onesConf.nodeId
      ([2, 3, 4].flatMap fun i => triple (.all i, (.ofQuad 10 0 0 i (26, 225) : Ip .ipv4)))
      [0, 0, 0, 4])⟩

theorem sent_messages_nodesReply :
    ∃ s s' : Main .ipv4, run (daemonStep onesConf) silentInit twoPings = .ok s ∧
      daemonStep onesConf s asksForNodes = .ok s' ∧ s'.sent = [.p2p nodesReply] ∧
      20 ≤ nodesReply.raw.length ∧ nodesReply.raw.length ≤ 512 ∧
      benValidate ⟨buffer nodesReply.raw [7], nodesReply.raw.length⟩ =
        some nodesReply.raw.length ∧
      ∃ m : Message .ipv4, nodesReply.raw = m.raw onesConf.nodeId ∧
        benDec ⟨buffer nodesReply.raw [7], nodesReply.raw.length⟩ =
          .ok (some (m.dict onesConf.nodeId), nodesReply.raw.length) := by
  have hlast : (run (daemonStep onesConf) silentInit (twoPings ++ [asksForNodes])).map (·.sent) =
      .ok [.p2p nodesReply] := by
    decide +kernel
  rw [run_append] at hlast
  obtain ⟨s', hrun', hsent⟩ := map_eq_ok hlast
  obtain ⟨s, hrun, hlast⟩ := bind_eq_ok hrun'
  obtain ⟨s₁, hstep, hnil⟩ := run_cons_eq_ok hlast
  cases hnil
  refine ⟨s, s', hrun, hstep, hsent, sent_messages (by decide) hrun hstep ?_ [7]⟩
  rw [hsent]
  exact List.mem_singleton_self _

end Torrentkino
