import Torrentkino.P2p.Krpc

/-!
# Where replies go

`p2p_request` hands the address of the sender by reference to its handlers, and
the handlers send their replies there.  For an announce the address first goes
through the value store, which writes the announced port into it if it takes
the value.

**Result.** `repliesToSender_iff`: the replies to a query go to its sender
exactly if the query is no announce of another port that the store takes.  The
transaction id is echoed in any case.
-/

namespace Torrentkino

open Memory

/-! ## The value store -/

section Value

variable {v : Build}

/-- The store takes values for a target: the target is listed, or `val_ins_sort`
finds a place for it. -/
def valAccepts (me : NodeId) (s : Value v) (target : NodeId) : Bool :=
  (valFind s target).isSome || (valPosition me s target).isSome

theorem tgtVUpdate_addr
    (now : Int) (t : TargetV v) (id : NodeId) (sa : Ip v) (port : Nat) :
    (tgtVUpdate now t id sa port).2 = ipMergePortToSin sa port := by
  rw [tgtVUpdate]
  split <;> rfl

theorem valUpdateAt_addr
    {s : Value v} {r : Ref} (hr : s.targets.heap.Live r)
    (now : Int) (id : NodeId) (port : Nat) (sa : Ip v) :
    (valUpdateAt now s r id port sa).2 = ipMergePortToSin sa port := by
  obtain ⟨t, ht⟩ := hr
  rw [valUpdateAt]
  split
  · rename_i h
    cases h.symm.trans ht
  · exact tgtVUpdate_addr _ _ _ _ _

/-- A position that was found lies inside the list, or there is room behind
it. -/
theorem valPosition_lt
    {me : NodeId} {s : Value v} {target : NodeId} {i : Nat}
    (h : valPosition me s target = some i) :
    i < s.targets.list.length ∨ s.targets.list.length < valueSizeMax := by
  rw [valPosition] at h
  split at h
  · rename_i j hj
    cases h
    left
    exact (List.findIdx?_eq_some_iff_getElem.mp hj).1
  · split at h
    · right
      assumption
    · cases h

/-- A target that `val_ins_sort` has inserted is still there when it returns:
if one is dropped, it is the last of those listed before. -/
theorem live_valInsSort
    {me : NodeId} {s : Value v} {target : NodeId} {i : Nat}
    (hnew : valFind s target = none)
    (hi : valPosition me s target = some i) :
    (valLimit { s with targets := s.targets.insert i (tgtVInit target) hnew }).targets.heap.Live
      s.targets.heap.fresh := by
  have hlive : (s.targets.insert i (tgtVInit target) hnew).heap.Live s.targets.heap.fresh :=
    Heap.live_alloc_self _ _
  rw [valLimit]
  split
  · rename_i hfull
    split
    · exact hlive
    · rename_i r hr
      have hne : s.targets.heap.fresh ≠ r := by
        intro hfresh
        have hinside : i < s.targets.list.length := by
          rcases valPosition_lt hi with h | h
          · exact h
          · change (s.targets.list.take i ++ s.targets.heap.fresh ::
              s.targets.list.drop i).length > valueSizeMax at hfull
            rw [List.length_append, List.length_cons, List.length_take,
              List.length_drop] at hfull
            omega
        have hdrop : s.targets.list.drop i ≠ [] := by
          simpa using hinside
        have hlast : (s.targets.list.drop i).getLast? = some r := by
          change (s.targets.list.take i ++ s.targets.heap.fresh ::
            s.targets.list.drop i).getLast? = some r at hr
          rwa [List.getLast?_append_of_ne_nil _ (List.cons_ne_nil _ _),
            List.getLast?_cons_of_ne_nil hdrop] at hr
        have hmem : r ∈ s.targets.list :=
          List.mem_of_mem_drop (List.mem_of_getLast? hlast)
        obtain ⟨t, ht⟩ := (s.targets.mem_list_iff r).mp hmem
        exact Nat.lt_irrefl _ (hfresh ▸ Heap.lt_fresh ht)
      obtain ⟨t, ht⟩ := hlive
      refine ⟨t, ?_⟩
      rw [valDel, Index.get_remove, if_neg hne]
      exact ht
  · exact hlive

/-- The address that `val_put` leaves. -/
theorem valPut_addr
    (me : NodeId) (now : Int) (s : Value v) (target id : NodeId) (port : Nat) (sa : Ip v) :
    (valPut me now s target id port sa).2 =
      if valAccepts me s target then ipMergePortToSin sa port else sa := by
  rw [valPut]
  split
  · rename_i r hr
    obtain ⟨t, ht, -⟩ := (s.targets.find_eq_some_iff _ _).mp hr
    rw [valUpdateAt_addr ⟨t, ht⟩]
    simp [valAccepts, hr]
  · rename_i hnone
    cases hpos : valPosition me s target with
    | none =>
        simp [valInsSort, hpos, valAccepts, hnone]
    | some i =>
        simp only [valInsSort, hpos, valAccepts, hnone, Option.isSome_some, Bool.or_true, if_true]
        exact valUpdateAt_addr (live_valInsSort hnone hpos) _ _ _ _

end Value

/-! ## The replies to a query -/

section Replies

variable {v : Build} {conf : Conf} {behind : Bytes} {s s' : Main v} {sa : Ip v}

/-- The datagram holds a dictionary with this transaction id. -/
def EchoesTid (raw t : Bytes) : Prop :=
  ∃ reply n, benDec ⟨buffer raw [], raw.length⟩ = .ok (some reply, n) ∧
    benDictSearchStr (some reply) "t" = some (.str t)

/-- All datagrams that `p2p_request` sends go to the sender of the query and
echo its transaction id. -/
def RepliesToSender (conf : Conf) (behind : Bytes) (s : Main v) (packet : Ben) (sa : Ip v) :
    Prop :=
  ∀ s', p2pRequest conf behind { s with sent := [] } packet sa = .ok s' →
    ∀ d ∈ s'.sent, ∃ raw t, d = .p2p ⟨sa, raw⟩ ∧
      benStrS (benDictSearchStr (some packet) "t") = some t ∧ EchoesTid raw t

/-- The query is an announce that passes all checks, for a target that the
store takes, and of a port that is not the port it was sent from. -/
def StoresOtherPort (conf : Conf) (behind : Bytes) (s : Main v) (packet : Ben) (sa : Ip v) :
    Prop :=
  ∃ head infoHash token port, requestHead conf.nodeId packet = .ok head ∧
    requestBody (tknAccepts s.token behind) head.q head.a =
      .ok (.announce infoHash token port) ∧
    valAccepts conf.nodeId s.value infoHash = true ∧ port ≠ ipSinToPort sa

/-- The address that the handler of a query replies to. -/
def replyAddr (conf : Conf) (s : Main v) (id : NodeId) (sa : Ip v) : Request → Ip v
  | .announce infoHash _ port => (valPut conf.nodeId s.now s.value infoHash id port sa).2
  | _ => sa

/-- The port of an announce is a port. -/
theorem requestBody_port
    {accept : Bytes → Bool} {q : Bytes} {arg : Ben} {infoHash : NodeId} {token : Bytes}
    {port : Nat} (h : requestBody accept q arg = .ok (.announce infoHash token port)) :
    port ≤ 65535 := by
  obtain ⟨-, hargs⟩ := (requestBody_eq_announce_iff _ _ _ _ _ _).mp h
  obtain ⟨_, _, _, -, -, -, -, -, hlow, hhigh, hr⟩ := (announceArgs_eq_ok_iff _ _ _).mp hargs
  cases hr
  omega

theorem length_tknRead {token : Token} {id : Bytes} (h : tknRead token = some id) :
    id.length = tokenSize := by
  obtain ⟨tkn, -, rfl⟩ := Option.map_eq_some_iff.mp h
  exact tkn.id_length

/-- A list that `val_compact_list` returns is one that the senders pass. -/
theorem exists_valueList
    (s : Value v) (target : NodeId) (hpos : (valCompactList s target).length > 0) :
    ∃ values : ValueList v, values.bytes = valCompactList s target := by
  refine ⟨⟨valCompactPairs s target, ?_, ?_⟩, rfl⟩
  · by_contra hnil
    have hnil : valCompactPairs s target = [] := by
      simpa using hnil
    rw [valCompactList, hnil] at hpos
    exact absurd hpos (Nat.lt_irrefl 0)
  · rw [valCompactPairs]
    split
    · exact Nat.zero_le _
    · rw [List.length_map]
      exact List.length_take_le _ _

/-- The only datagram a handler sends is an answer with the transaction id of
the query. -/
theorem handleRequest_sent
    {id : NodeId} {t : Bytes} (ht : t.length ≤ tidSizeMax) (r : Request)
    (h : handleRequest conf s id t sa r = .ok s') :
    s'.sent = s.sent ∨ ∃ a : Answer v, a.tid.bytes = t ∧
      s'.sent = s.sent ++
        [.p2p ⟨replyAddr conf s id sa r, benEncRec (a.dict conf.nodeId)⟩] := by
  let tid : EchoedTid := ⟨t, Nat.zero_le _, ht⟩
  cases r with
  | ping =>
      cases h
      exact .inr ⟨⟨.pong, tid⟩, rfl, by simp [p2pPing, sendPong, Main.send, sendUdp,
        replyAddr, Answer.dict, tid]⟩
  | findNode target =>
      simp only [handleRequest, Except.ok.injEq, p2pFindNodeGetRequest] at h
      split at h
      · rename_i hpos
        obtain ⟨nodes, hbytes, -⟩ := exists_nodeList s.nbhd.heap s.nbhd.bucket target
          (List.length_pos_iff.mp hpos)
        cases h
        exact .inr ⟨⟨.findNode nodes, tid⟩, rfl, by simp [sendFindNodeReply, Main.send,
          sendUdp, replyAddr, Answer.dict, hbytes, tid]⟩
      · cases h
        exact .inl rfl
  | getPeers infoHash =>
      simp only [handleRequest, p2pGetPeersGetRequest] at h
      split at h
      · rename_i hpos
        obtain ⟨values, hbytes⟩ := exists_valueList s.value infoHash hpos
        rw [sendGetPeersValues] at h
        split at h
        · cases h
        · rename_i token htoken
          have hlen := length_tknRead htoken
          cases h
          exact .inr ⟨⟨.getPeersValues values ⟨token, by simp [hlen, tokenSize], by
            simp [hlen, tokenSize, tokenSizeMax]⟩, tid⟩, rfl, by simp [Main.send,
            sendUdp, replyAddr, Answer.dict, hbytes, tid]⟩
      · split at h
        · rename_i hpos
          obtain ⟨nodes, hbytes, -⟩ := exists_nodeList s.nbhd.heap s.nbhd.bucket infoHash
            (List.length_pos_iff.mp hpos)
          rw [sendGetPeersNodes] at h
          split at h
          · cases h
          · rename_i token htoken
            have hlen := length_tknRead htoken
            cases h
            exact .inr ⟨⟨.getPeersNodes nodes ⟨token, by simp [hlen, tokenSize], by
              simp [hlen, tokenSize, tokenSizeMax]⟩, tid⟩, rfl, by simp [Main.send,
              sendUdp, replyAddr, Answer.dict, hbytes, tid]⟩
        · cases h
          exact .inl rfl
  | announce infoHash token port =>
      cases h
      exact .inr ⟨⟨.announce, tid⟩, rfl, by simp [p2pAnnounceGetRequest, sendAnnounceReply,
        Main.send, sendUdp, replyAddr, Answer.dict, tid]⟩

/-- An answer echoes its transaction id. -/
theorem Answer.echoesTid (me : NodeId) (a : Answer v) :
    EchoesTid (benEncRec (a.dict me)) a.tid.bytes := by
  refine ⟨a.dict me, _, (benDec_benEnc (a.bounded_dict me) []).2.2, ?_⟩
  rw [Answer.dict_eq, search_replyDict_t]

/-- What `p2p_request` sends. -/
theorem p2pRequest_sent
    {packet : Ben} (h : p2pRequest conf behind { s with sent := [] } packet sa = .ok s') :
    s'.sent = [] ∨ ∃ (head : RequestHead) (r : Request) (a : Answer v),
      requestHead conf.nodeId packet = .ok head ∧
      requestBody (tknAccepts s.token behind) head.q head.a = .ok r ∧
      a.tid.bytes = head.t ∧
      s'.sent = [.p2p ⟨replyAddr conf s head.id sa r, benEncRec (a.dict conf.nodeId)⟩] := by
  rw [p2pRequest] at h
  split at h
  · cases h
    exact .inl rfl
  · rename_i head hhead
    dsimp only at h
    split at h
    · cases h
      exact .inl rfl
    · rename_i r hr
      rcases handleRequest_sent (requestHead_eq_ok hhead).2.2 r h with hsent | ⟨a, htid, hsent⟩
      · exact .inl hsent
      · refine .inr ⟨head, r, a, hhead, hr, htid, hsent.trans ?_⟩
        cases r <;> rfl

/-- The address survives unless the store takes another port. -/
theorem replyAddr_eq_self
    {packet : Ben} {head : RequestHead} {r : Request}
    (hstore : ¬ StoresOtherPort conf behind s packet sa)
    (hhead : requestHead conf.nodeId packet = .ok head)
    (hbody : requestBody (tknAccepts s.token behind) head.q head.a = .ok r) :
    replyAddr conf s head.id sa r = sa := by
  cases r with
  | announce infoHash token port =>
      rw [replyAddr, valPut_addr]
      cases haccepts : valAccepts conf.nodeId s.value infoHash with
      | false =>
          rfl
      | true =>
          have hport : port = ipSinToPort sa := by
            by_contra hne
            exact hstore ⟨head, infoHash, token, port, hhead, hbody, haccepts, hne⟩
          rw [if_pos rfl, ipMergePortToSin_eq_self_iff, ← hport,
            Nat.mod_eq_of_lt (Nat.lt_succ_of_le (requestBody_port hbody))]
  | _ =>
      rfl

theorem repliesToSender_of_not_storesOtherPort
    {packet : Ben} (hstore : ¬ StoresOtherPort conf behind s packet sa) :
    RepliesToSender conf behind s packet sa := by
  intro s' h d hd
  rcases p2pRequest_sent h with hsent | ⟨head, r, a, hhead, hbody, htid, hsent⟩
  · rw [hsent] at hd
    cases hd
  · rw [hsent, List.mem_singleton] at hd
    rw [replyAddr_eq_self hstore hhead hbody] at hd
    refine ⟨_, head.t, hd, (requestHead_eq_ok hhead).2.1, ?_⟩
    rw [← htid]
    exact a.echoesTid conf.nodeId

/-- An announce that passes the checks goes to its handler. -/
theorem p2pRequest_announce
    {packet : Ben} {head : RequestHead} {infoHash : NodeId} {token : Bytes} {port : Nat}
    (hhead : requestHead conf.nodeId packet = .ok head)
    (hbody : requestBody (tknAccepts s.token behind) head.q head.a =
      .ok (.announce infoHash token port))
    (sa : Ip v) :
    p2pRequest conf behind { s with sent := [] } packet sa =
      .ok (p2pAnnounceGetRequest conf
        (({ s with sent := [] } : Main v).nbhdPut conf head.id sa) infoHash head.id port head.t
        sa) := by
  rw [p2pRequest, hhead]
  dsimp only
  have htoken : (({ s with sent := [] } : Main v).nbhdPut conf head.id sa).token = s.token := rfl
  rw [htoken, hbody]
  rfl

theorem sent_p2pAnnounceGetRequest
    (infoHash id : NodeId) (port : Nat) (tid : Bytes) :
    (p2pAnnounceGetRequest conf s infoHash id port tid sa).sent =
      s.sent ++ [.p2p ⟨(valPut conf.nodeId s.now s.value infoHash id port sa).2,
        benEncRec (announceReplyDict conf.nodeId tid)⟩] := by
  simp [p2pAnnounceGetRequest, sendAnnounceReply, Main.send, sendUdp]

/-- The success message for an announce of another port goes to that port. -/
theorem not_repliesToSender_of_storesOtherPort
    {packet : Ben} (hstore : StoresOtherPort conf behind s packet sa) :
    ¬ RepliesToSender conf behind s packet sa := by
  obtain ⟨head, infoHash, token, port, hhead, hbody, haccepts, hne⟩ := hstore
  intro hreplies
  have hrun := p2pRequest_announce hhead hbody sa
  have hsent : (p2pAnnounceGetRequest conf (({ s with sent := [] } : Main v).nbhdPut conf head.id sa)
      infoHash head.id port head.t sa).sent =
        [.p2p ⟨ipMergePortToSin sa port, benEncRec (announceReplyDict conf.nodeId head.t)⟩] := by
    rw [sent_p2pAnnounceGetRequest, valPut_addr]
    exact congrArg (fun a => [Sent.p2p ⟨a, _⟩]) (if_pos haccepts)
  obtain ⟨raw, t, hd, -⟩ := hreplies _ hrun _ (by rw [hsent]; exact List.mem_singleton_self _)
  simp only [Sent.p2p.injEq, Datagram.mk.injEq] at hd
  have hport := (ipMergePortToSin_eq_self_iff sa port).mp hd.1
  rw [Nat.mod_eq_of_lt (Nat.lt_succ_of_le (requestBody_port hbody))] at hport
  exact hne hport.symm

/-- The replies to a query go to its sender and echo its transaction id, unless
the query is an announce that the store takes and whose port is not the port it
was sent from. -/
theorem repliesToSender_iff
    (conf : Conf) (behind : Bytes) (s : Main v) (packet : Ben) (sa : Ip v) :
    RepliesToSender conf behind s packet sa ↔ ¬ StoresOtherPort conf behind s packet sa := by
  constructor
  · intro hreplies hstore
    exact not_repliesToSender_of_storesOtherPort hstore hreplies
  · exact repliesToSender_of_not_storesOtherPort

end Replies

/-- An announce of port 6881, with the token that `main` has created. -/
def announce6881 : Ben :=
  announceRequestDict .zero .zero 6881 [0, 1, 2, 3, 4, 5, 6, 7] [8, 9, 10, 11]

/-- Right after the start a node accepts it, and answers the sender with port
26881 on port 6881. -/
theorem not_repliesToSender_announce6881 :
    ¬ RepliesToSender onesConf [] (mainInit 0 [] ⟨fun _ => 0, UInt8.ofNat⟩ []) announce6881
      (⟨[10, 0, 0, 2], (105, 1), rfl⟩ : Ip .ipv4) := by
  refine not_repliesToSender_of_storesOtherPort ?_
  have hhead : requestHead onesConf.nodeId announce6881 = .ok _ :=
    requestHead_queryDict (by decide) "announce_peer" _ (by decide)
  refine ⟨_, .zero, [0, 1, 2, 3, 4, 5, 6, 7], 6881, hhead, ?_, ?_, ?_⟩
  · decide +kernel
  · decide +kernel
  · decide

end Torrentkino
