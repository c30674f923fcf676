import Torrentkino.P2p.Network

/-!
# The addresses in a network

What a daemon stores and tells its DNS clients was told to it by other daemons, and to them by
others.  In a network in which only daemons talk to daemons it can be traced back: some
daemon has announced it.

A daemon that is asked for a name answers from its own value store by the name.  What comes from
another daemon carries a transaction id only, and an old reply may find a new transaction with the
same id.  So of cached addresses it is not said for which of its names a daemon has announced
them.

**Result.** `run_net_addresses`.
-/

namespace Torrentkino

open Memory Simulation Network

/-! ## What a receiver reads in a message -/

section Read

variable {v : Build}

/-- Where the values of a reply are read. -/
theorem values_of_replyBody
    {type : TidType} {arg : Ben} {token : Bytes} {values : List Ben}
    (h : replyBody v type arg = .ok (.getPeersValues token values)) :
    benDictSearchStr (some arg) "values" = some (.list values) := by
  cases type with
  | ping | pingMulticast | announceEngage =>
      cases h
  | findNode =>
      obtain ⟨nodes, -, heq⟩ := map_eq_ok h
      cases heq
  | getPeers | announceStart =>
      rw [replyBody, getPeersArgs] at h
      split at h
      · cases h
      split at h
      · cases h
      split at h
      · cases h
      split at h
      · rename_i hvalues
        cases h
        exact hvalues
      · cases h
      split at h
      · cases h
      · obtain ⟨nodes, -, heq⟩ := map_eq_ok h
        cases heq

/-- Only one kind of reply has values. -/
theorem Answer.values_content
    {a : Answer v} {me : NodeId} {values : List Ben}
    (h : benDictSearchStr (some (.dict (entry "id" (.str me.bytes) :: a.content))) "values" =
      some (.list values)) :
    ∃ l token, a.kind = .getPeersValues l token ∧ values = valuesList v l.bytes := by
  have hid : cstr "id" ≠ cstr "values" := by decide
  have htoken : cstr "token" ≠ cstr "values" := by decide
  have hnodes : cstr v.nodesKey ≠ cstr "values" := by cases v <;> decide
  rw [benDictSearchStr_entry_of_ne hid] at h
  obtain ⟨kind, tid⟩ := a
  cases kind with
  | pong | announce =>
      cases h
  | findNode nodes =>
      rw [content, benDictSearchStr_entry_of_ne hnodes] at h
      cases h
  | getPeersNodes nodes token =>
      rw [content, benDictSearchStr_entry_of_ne hnodes, benDictSearchStr_entry_of_ne htoken] at h
      cases h
  | getPeersValues l token =>
      rw [content, benDictSearchStr_entry_of_ne htoken, benDictSearchStr_entry_self] at h
      cases h
      exact ⟨l, token, rfl, rfl⟩

/-- A reader of a query other than its sender finds what was put in. -/
theorem Query.announce_of_requestBody
    {q : Query} {id me : NodeId} {head : RequestHead} {accept : Bytes → Bool} {infoHash : NodeId}
    {token : Bytes} {port : Nat} (hhead : requestHead me (q.dict id) = .ok head)
    (hbody : requestBody accept head.q head.a = .ok (.announce infoHash token port)) :
    ∃ hport handed tid, q = .announce infoHash port hport handed tid := by
  have htid : q.tid.bytes.length ≤ tidSizeMax := Nat.le_trans q.tid.length_le (by decide)
  have hme : id ≠ me := by
    rintro rfl
    rw [Query.dict_eq] at hhead
    simp [requestHead, benStrS, nodeMe] at hhead
  rw [Query.dict_eq, requestHead_queryDict hme _ _ htid] at hhead
  cases hhead
  rw [Query.requestBody_eq] at hbody
  split at hbody
  · have hrequest : q.request = .announce infoHash token port := Except.ok.inj hbody
    cases q with
    | ping tid | findNode target tid | getPeers infoHash tid =>
        cases hrequest
    | announce infoHash' port' hport handed tid =>
        cases hrequest
        exact ⟨hport, handed, tid, rfl⟩
  · cases hbody

/-- The packet in a datagram with a message. -/
theorem messageOf_raw
    {me : NodeId} {m : Message v} {y : UInt8} {packet : Ben}
    (h : messageOf (received (m.raw me)) = some (y, packet)) : packet = m.dict me := by
  have hle : (m.raw me).length ≤ udpBuf := Nat.le_trans (m.length_raw_le me) (by decide)
  obtain ⟨-, -, hdec⟩ := benDec_benEnc (m.bounded_dict me) []
  rw [received_of_length_le hle, messageOf, Message.raw, hdec] at h
  split at h
  · rename_i d n heq
    have hdict : m.dict me = .dict d := by
      simp only [Except.ok.injEq, Prod.mk.injEq, Option.some.injEq] at heq
      exact heq.1
    split at h
    · cases h
      exact hdict.symm
    · cases h
  · cases h

/-- A message that says nothing false is credible, if its sender's address and port may be
stored for what it announces. -/
theorem Message.From.credible
    {conf : Conf} {org org' : Origins v} {m : Message v} {sa : Ip v} (h : m.From conf org)
    (hstored : ∀ infoHash, org.announced infoHash →
      org'.stored infoHash (ipMergePortToSin sa conf.announcePort).pair)
    (hknown : ∀ pair, org.known pair → org'.known pair) :
    Credible org' (m.dict conf.nodeId) sa := by
  constructor
  · intro me head accept infoHash token port hhead hbody
    cases m with
    | query q =>
        obtain ⟨hport, handed, tid, rfl⟩ := Query.announce_of_requestBody hhead hbody
        obtain ⟨hannounced, rfl⟩ := h
        exact hstored infoHash hannounced
    | answer a =>
        have hq : benDictSearchStr (some (a.dict conf.nodeId)) "q" = none := by
          rw [Answer.dict_eq]
          simp (disch := decide) [replyDict, benDictSearchStr_entry_of_ne]
        rw [Message.dict, requestHead, hq] at hhead
        cases hhead
  · intro me head type token values pairs hhead hbody hpairs
    cases m with
    | query q =>
        have hr : benDictSearchStr (some (q.dict conf.nodeId)) "r" = none := by
          rw [Query.dict_eq]
          simp (disch := decide) [queryDict, benDictSearchStr_entry_of_ne]
        rw [Message.dict, replyHead, hr] at hhead
        cases hhead
    | answer a =>
        have harg : head.r = .dict (entry "id" (.str conf.nodeId.bytes) :: a.content) := by
          rw [Message.dict, Answer.dict_eq, replyHead, search_replyDict_r] at hhead
          dsimp only at hhead
          repeat' split at hhead
          all_goals first
            | cases hhead; done
            | (cases hhead; rfl)
        have hvalues := values_of_replyBody hbody
        rw [harg] at hvalues
        obtain ⟨l, handed, hkind, rfl⟩ := Answer.values_content hvalues
        have hl : ∀ pair ∈ l.pairs, org.known pair := by
          rw [Message.From, hkind] at h
          exact h
        rw [ValueList.bytes, valuesPairs_valuesList l.length_le] at hpairs
        cases hpairs
        exact fun pair hpair => hknown pair (hl pair hpair)

end Read

/-! ## Networks -/

section Net

variable {ι : Type} {v : Build}

/-- The host announces the target: it is one of its hostnames. -/
def Peer.Announces (peer : Peer v) (target : NodeId) : Prop :=
  ∃ identity ∈ peer.identity, identity.hostId = target

/-- The address that the host announces. -/
def Peer.pair (peer : Peer v) : Pair v :=
  (ipMergePortToSin peer.addr peer.conf.announcePort).pair

/-- A host announces its own hostnames.  What is stored for a target is announced by a host, and
what is passed on is announced by a host for some target. -/
def netOrigins (peers : ι → Peer v) (i : ι) : Origins v where
  announced target := (peers i).Announces target
  stored target pair := ∃ j, (peers j).Announces target ∧ pair = (peers j).pair
  known pair := ∃ j target, (peers j).Announces target ∧ pair = (peers j).pair
  known_of_stored := fun ⟨j, hj, hpair⟩ => ⟨j, _, hj, hpair⟩

variable {peers : ι → Peer v}

/-- What holds of a daemon in the network. -/
def Traceable (peers : ι → Peer v) (i : ι) (s : Main v) : Prop :=
  s.Sound (netOrigins peers i) ∧ ∀ d ∈ s.sent, Says (peers i).conf (netOrigins peers i) d

/-- What holds of a packet. -/
def TraceablePacket (peers : ι → Peer v) (i : ι) (d : Datagram v) : Prop :=
  ∃ m : Message v, d.raw = m.raw (peers i).conf.nodeId ∧
    m.From (peers i).conf (netOrigins peers i)

theorem traceable_init (i : ι) : Traceable peers i (peers i).init := by
  have hids : ∀ identity ∈ (peers i).identity, (netOrigins peers i).announced identity.hostId :=
    fun identity hmem => ⟨identity, hmem, rfl⟩
  refine ⟨sound_mainInit hids _ _ _, fun d hd => ?_⟩
  cases hd

theorem keeps_traceable :
    Keeps (react peers) (Traceable peers) (TraceablePacket peers)
      fun i e => e.Credible (netOrigins peers i) := by
  rintro i s e ⟨s', ds⟩ ⟨hsound, -⟩ hcredible h
  obtain ⟨s₁, hstep, heq⟩ := map_eq_ok h
  cases heq
  obtain ⟨hsound', hsays⟩ := hsound.step (peers i).port_ok hcredible hstep
  exact ⟨⟨hsound', hsays⟩, fun d hd => hsays _ (mem_p2pSent.mp hd)⟩

theorem credible_arrive
    {i : ι} {c : Circumstances} {packet : ι × Datagram v}
    (h : TraceablePacket peers packet.1 packet.2) :
    (arrive peers c packet).Credible (netOrigins peers i) := by
  obtain ⟨m, hm, hfrom⟩ := h
  intro y ben hmessage
  rw [hm] at hmessage
  rw [messageOf_raw hmessage]
  exact hfrom.credible (fun infoHash hannounced => ⟨packet.1, hannounced, rfl⟩) fun pair => id

/-- In every run of a network, whatever is lost, repeated, delayed or reordered: what a daemon has
stored for a target was announced for it by a host with this address, and the addresses in
its cache and in its responses to DNS clients are those of hosts that announce something.  The
datagrams that come from outside, if there are any, have to be credible. -/
theorem run_net_addresses
    [DecidableEq ι] (peers : ι → Peer v) {ops : List (NetOp ι (Event v) Circumstances)}
    (hops : ∀ i e, .input i e ∈ ops → e.Credible (netOrigins peers i))
    {n : Net ι (Main v) (Datagram v)}
    (hrun : run (netStep (react peers) (arrive peers)) (netInit peers) ops = .ok n) (i : ι) :
    (∀ t ∈ (n.nodes i).value.targets.objects, ∀ e ∈ t.nodes.objects,
        ∃ j, (peers j).Announces t.target ∧ e.pair = (peers j).pair) ∧
      (∀ t ∈ (n.nodes i).cache.targets.objects, ∀ e ∈ t.nodes.objects,
        ∃ j target, (peers j).Announces target ∧ e.pair = (peers j).pair) ∧
      ∀ d l, .dns d l ∈ (n.nodes i).sent → Tells (netOrigins peers i) d.raw := by
  have hinit : (netInit peers).All (Traceable peers) (TraceablePacket peers) := by
    refine ⟨traceable_init, fun packet hpacket => ?_⟩
    cases hpacket
  have hall := run_net_invariant keeps_traceable credible_arrive hops hrun hinit
  obtain ⟨hsound, hsays⟩ := hall.nodes i
  refine ⟨fun t ht e he => ?_, fun t ht e he => ?_, fun d l hd => hsays _ hd⟩
  · exact (hsound.value.of_mem ht).of_mem he
  · exact (hsound.cache.of_mem ht).of_mem he

end Net

/-- Two hosts, of which the first one has a hostname. -/
def namedPeers (i : Bool) : Peer .ipv4 :=
  { twoPeers i with identity := if i then [] else [⟨onesConf.nodeId, 0⟩] }

/-- The circumstances of a delivery at a time. -/
def atTime (now : Int) : Circumstances :=
  ⟨now, [], fun _ => zeroSalt⟩

/-- The first host gets to know the second one, asks it for the nodes near its hostname, and a
minute later announces the hostname to it. -/
def oneAnnounce : List (NetOp Bool (Event .ipv4) Circumstances) :=
  [.input false (.cron 1 [[.ofQuad 10 0 0 2 (26, 225)]]),
    .deliver true 0 (atTime 1), .deliver false 1 (atTime 1),
    .input false (.cron 2 []),
    .deliver true 3 (atTime 2), .deliver false 4 (atTime 2),
    .input false (.cron 99 []),
    .deliver true 5 (atTime 99)]

/-- The second host has stored the address of the first one for its hostname. -/
theorem run_net_addresses_oneAnnounce :
    ∃ n, run (netStep (react namedPeers) (arrive namedPeers)) (netInit namedPeers) oneAnnounce =
        .ok n ∧
      (n.nodes true).value.targets.objects.map
          (fun t => (t.target, t.nodes.objects.map (·.pair))) =
        [(onesConf.nodeId, [⟨[10, 0, 0, 1, 31, 144], rfl⟩])] ∧
      (∀ t ∈ (n.nodes true).value.targets.objects, ∀ e ∈ t.nodes.objects,
        ∃ j, (namedPeers j).Announces t.target ∧ e.pair = (namedPeers j).pair) ∧
      (∀ t ∈ (n.nodes true).cache.targets.objects, ∀ e ∈ t.nodes.objects,
        ∃ j target, (namedPeers j).Announces target ∧ e.pair = (namedPeers j).pair) ∧
      ∀ d l, .dns d l ∈ (n.nodes true).sent → Tells (netOrigins namedPeers true) d.raw := by
  have hops : ∀ i e, .input i e ∈ oneAnnounce → e.Credible (netOrigins namedPeers i) := by
    intro i e h
    simp only [oneAnnounce, List.mem_cons, NetOp.input.injEq, reduceCtorEq, List.not_mem_nil,
      or_false, false_or] at h
    rcases h with ⟨-, rfl⟩ | ⟨-, rfl⟩ | ⟨-, rfl⟩ <;> trivial
  have hstored : (run (netStep (react namedPeers) (arrive namedPeers)) (netInit namedPeers)
      oneAnnounce).map (fun n => (n.nodes true).value.targets.objects.map
        fun t => (t.target, t.nodes.objects.map (·.pair))) =
      .ok [(onesConf.nodeId, [⟨[10, 0, 0, 1, 31, 144], rfl⟩])] := by
    decide +kernel
  obtain ⟨n, hrun, hstored⟩ := map_eq_ok hstored
  exact ⟨n, hrun, hstored, run_net_addresses namedPeers hops hrun true⟩

end Torrentkino
