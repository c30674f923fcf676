import Torrentkino.P2p.LookupQueries

/-!
# The addresses in the routing table

`nbhd_put` refuses the own identifier and the address of the own host, and
link-local addresses are refused where datagrams and lists of nodes are read.
`nbhd_ponged` refuses nothing: a reply to a ping moves its node to the address the
reply came from.

**Results.**
* `table_clean_iff`: no node of the table ever has the own identifier or a link-local
  address, and in exactly the runs without a pong from the own host none has the
  address of the own host.
-/

namespace Torrentkino

open Memory Simulation

variable {v : Build}

/-! ## Operations on the table -/

section Table

variable {A : Ip v → Prop} {me : NodeId} {t t' : Nbhd v}

/-- An address that the operation stores is of a kind. -/
def NbhdOp.Brings (A : Ip v → Prop) : NbhdOp v → Prop
  | .put _ sa => ipIsLocalhost sa = false → A sa
  | .ponged _ sa _ => A sa
  | _ => True

/-- The nodes have addresses of a kind. -/
def Addresses (A : Ip v → Prop) (t : Nbhd v) : Prop :=
  ∀ r n, t.heap.get r = some n → A n.cAddr

namespace Addresses

theorem modify
    (h : Addresses A t) (r : Ref) {f : UdpNode v → UdpNode v}
    (hf : ∀ n, A n.cAddr → A (f n).cAddr) :
    Addresses A { t with heap := t.heap.modify r f } := by
  intro q n hget
  change (t.heap.modify r f).get q = some n at hget
  rcases eq_or_ne q r with rfl | hq
  · rw [Heap.get_modify_self] at hget
    obtain ⟨n', hget', rfl⟩ := Option.map_eq_some_iff.mp hget
    exact hf n' (h q n' hget')
  · rw [Heap.get_modify_of_ne _ _ hq] at hget
    exact h q n hget

/-- `nbhd_put` brings no address of the own host. -/
theorem nbhdPut
    (h : Addresses A t) (id : NodeId) {sa : Ip v} (hsa : ipIsLocalhost sa = false → A sa) :
    Addresses A (nbhdPut me t id sa) := by
  rw [Torrentkino.nbhdPut]
  split
  · exact h
  split
  · exact h
  rename_i hhost
  have hA := hsa (Bool.eq_false_iff.mpr hhost)
  split
  · exact h.modify _ fun _ _ => hA
  have halloc : ∀ r n, (t.heap.alloc (nodeInit id sa)).get r = some n → A n.cAddr := by
    intro r n hget
    rcases eq_or_ne r t.heap.fresh with rfl | hr
    · rw [Heap.get_alloc_self] at hget
      cases hget
      exact hA
    · rw [Heap.get_alloc_of_ne _ _ hr] at hget
      exact h r n hget
  dsimp only
  split
  · intro r n hget
    exact halloc r n (Heap.get_of_get_free hget)
  · exact halloc

theorem nbhdDel (h : Addresses A t) (r : Ref) : Addresses A (nbhdDel t r) := by
  rw [Torrentkino.nbhdDel]
  split
  · exact h
  · intro q n hget
    exact h q n (Heap.get_of_get_free hget)

theorem nbhdExpire (h : Addresses A t) : Addresses A (nbhdExpire t) := by
  refine List.foldlRecOn (motive := Addresses A) _ _ h ?_
  intro t h i _
  rw [nbhdExpireBucket]
  split
  · exact h
  · refine List.foldlRecOn (motive := Addresses A) _ _ h ?_
    intro t h r _
    split
    · exact h.nbhdDel r
    · exact h

theorem nbhdPonged (h : Addresses A t) (id : NodeId) {sa : Ip v} (hsa : A sa) (time : Int) :
    Addresses A (nbhdPonged t id sa time) := by
  rw [Torrentkino.nbhdPonged]
  split
  · exact h
  · exact h.modify _ fun _ _ => hsa

theorem nbhdStep
    (h : Addresses A t) {op : NbhdOp v} (hop : op.Brings A)
    (hstep : nbhdStep me t op = .ok t') :
    Addresses A t' := by
  cases op with
  | put id sa =>
      cases hstep
      exact h.nbhdPut id hop
  | pinged id time =>
      cases hstep
      rw [nbhdPinged]
      split
      · exact h
      · exact h.modify _ fun _ hn => hn
  | ponged id sa time =>
      cases hstep
      exact h.nbhdPonged id hop time
  | expire =>
      cases hstep
      exact h.nbhdExpire
  | split target =>
      rw [Torrentkino.nbhdStep, nbhdSplit] at hstep
      generalize bcktSplitLoop t.heap target 161 t.bucket = bucket at hstep
      cases bucket with
      | none =>
          cases hstep
      | some bucket =>
          cases hstep
          exact h

end Addresses
end Table

/-! ## Acts -/

section Acts

variable {A : Ip v → Prop} {conf : Conf} {s s' : Main v}

theorem startLookup_nbhd
    (conf : Conf) (s : Main v) (target : NodeId) (type : TidType)
    (query : Option (Ip v × DnsMsg)) :
    (startLookup conf s target type query).nbhd = s.nbhd :=
  List.foldlRecOn (motive := fun s' : Main v => s'.nbhd = s.nbhd) _ _ rfl fun _ hs _ _ => hs

theorem addresses_calmAct
    {B : Ip v → Prop} (hB : ∀ sa, B sa → ipIsLocalhost sa = false → A sa)
    {a : Act v} (ha : a.Calm B s) (h : Addresses A s.nbhd) (hstep : actStep conf s a = .ok s') :
    Addresses A s'.nbhd := by
  cases a with
  | event | names names | respond d | tdbDel ti | nodes id ti tid token nodes sa
  | values id ti token values sa =>
      cases ha
  | store m | tdbPut type other | send sa dict other =>
      cases hstep
      exact h
  | nbhd op =>
      rw [actStep] at hstep
      split at hstep
      · cases hstep
      · rename_i nbhd hnbhd
        cases hstep
        refine h.nbhdStep ?_ hnbhd
        cases op with
        | put id sa =>
            exact hB sa ha
        | ponged id sa time =>
            cases ha
        | _ =>
            trivial
  | found r time =>
      cases hstep
      exact h.modify _ fun _ hn => hn
  | lookup target type owner query =>
      cases hstep
      rwa [startLookup_nbhd]

theorem addresses_tickAct
    {a : Act v} (ha : a.Tick s) (h : Addresses A s.nbhd) (hstep : actStep conf s a = .ok s') :
    Addresses A s'.nbhd := by
  rcases ha.cases with ⟨m, rfl, -⟩ | ⟨ti, tid, rfl, -⟩ | hcalm
  · cases hstep
    exact h
  · cases hstep
    exact h
  · exact addresses_calmAct (fun _ hfalse => hfalse.elim) hcalm h hstep

theorem nbhd_resolvesAct
    {a : Act v} (ha : a.Resolves s) (hstep : actStep conf s a = .ok s') :
    s'.nbhd = s.nbhd := by
  cases a with
  | store m | names names | respond d =>
      cases hstep
      rfl
  | lookup target type owner query =>
      cases hstep
      exact startLookup_nbhd _ _ _ _ _
  | _ =>
      cases ha

/-! ## Events -/

theorem addresses_calm
    {B : Ip v → Prop} (hB : ∀ sa, B sa → ipIsLocalhost sa = false → A sa)
    (hcalm : CalmActs conf B s s') (h : Addresses A s.nbhd) :
    Addresses A s'.nbhd :=
  Leads.lift (r := fun s s' : Main v => Addresses A s.nbhd → Addresses A s'.nbhd)
    (fun _ h => h) (fun h h' => h' ∘ h)
    (fun ha hstep h => addresses_calmAct hB ha h hstep) hcalm h

theorem addresses_tick (htick : TickActs conf s s') (h : Addresses A s.nbhd) :
    Addresses A s'.nbhd :=
  Leads.lift (r := fun s s' : Main v => Addresses A s.nbhd → Addresses A s'.nbhd)
    (fun _ h => h) (fun h h' => h' ∘ h) (fun ha hstep h => addresses_tickAct ha h hstep) htick h

theorem nbhd_resolves (hresolves : ResolvesActs conf s s') : s'.nbhd = s.nbhd :=
  Leads.lift (r := fun s s' : Main v => s'.nbhd = s.nbhd) (fun _ => rfl)
    (fun h h' => h'.trans h) nbhd_resolvesAct hresolves

/-- Lists of nodes bring no link-local address. -/
theorem addresses_getNodesQuery
    (hA : ∀ sa, ipIsLinklocal sa = false → ipIsLocalhost sa = false → A sa)
    (h : Addresses A s.nbhd) (l : Ref) (tid : Bytes) (node : NodeId × Ip v) :
    Addresses A (getNodesQuery conf l tid s node).nbhd := by
  rw [getNodesQuery]
  split
  · exact h
  split
  · exact h
  rename_i hlocal
  have hput : Addresses A (s.nbhdPut conf node.1 node.2).nbhd :=
    h.nbhdPut node.1 (hA node.2 (Bool.eq_false_iff.mpr hlocal))
  dsimp only
  split
  · exact hput
  split
  · exact hput
  split
  · exact hput
  · exact hput

theorem addresses_handleReply
    (hA : ∀ sa, ipIsLinklocal sa = false → ipIsLocalhost sa = false → A sa)
    {id : NodeId} {ti : Ref} {tid : Bytes} {sa : Ip v} {reply : Reply}
    (hpong : reply = .pong → hashExists s.nbhd.hash id.bytes = true → A sa)
    (h : Addresses A s.nbhd) (hrun : handleReply conf s id ti tid sa reply = .ok s') :
    Addresses A s'.nbhd := by
  cases reply with
  | pong =>
      cases hrun
      rw [p2pPong]
      split
      · rename_i hknown
        exact h.nbhdPonged id (hpong rfl hknown) _
      · exact h
  | findNode nodes =>
      cases hrun
      exact addresses_calm hA (calm_p2pFindNodeGetReply (fun _ hlocal => hlocal) conf s nodes) h
  | getPeersNodes token nodes =>
      cases hrun
      rw [p2pGetPeersGetNodes]
      split
      · exact h
      · refine List.foldlRecOn (motive := fun s : Main v => Addresses A s.nbhd) _ _ h ?_
        exact fun s hs node _ => addresses_getNodesQuery hA hs _ tid node
  | getPeersValues token values =>
      rcases p2pGetPeersGetValues_cases hrun with
        rfl | ⟨l, lookup, -, rfl | ⟨pairs, -, -, -, hanswer⟩⟩
      · exact h
      · exact h
      · obtain ⟨put, -, cache, sent, rfl, -⟩ := answerInitiator_cases hanswer
        exact h
  | announce =>
      cases hrun
      exact h

theorem nbhd_replyCleanup (type : TidType) (ti : Ref) (s : Main v) :
    (replyCleanup type ti s).nbhd = s.nbhd := by
  cases type <;> rfl

/-! ## Pongs from the own host -/

/-- The datagram is a reply to a ping, and the sender's identifier is known. -/
def IsPong (conf : Conf) (s : Main v) (datagram : Bytes) : Prop :=
  (benValidate (received datagram)).isSome ∧
    ∃ packet head ti type, messageOf (received datagram) = some ('r'.toUInt8, packet) ∧
      replyHead conf.nodeId packet = .ok head ∧ tdbItem s.transaction head.t = some ti ∧
      tdbType s.transaction (some ti) = some type ∧ (type = .ping ∨ type = .pingMulticast) ∧
      hashExists s.nbhd.hash head.id.bytes = true

/-- The event is such a reply from the own host. -/
def LocalPong (conf : Conf) (s : Main v) : Event v → Prop
  | .p2p _ _ datagram sa => ipIsLocalhost sa = true ∧ IsPong conf s datagram
  | _ => False

theorem nbhdPut_of_localhost
    {sa : Ip v} (hsa : ipIsLocalhost sa = true) (conf : Conf) (s : Main v) (id : NodeId) :
    s.nbhdPut conf id sa = s := by
  rw [Main.nbhdPut, nbhdPut, hsa, if_pos rfl, ite_self]

theorem linklocal_of_localhost {sa : Ip v} (hsa : ipIsLocalhost sa = true) :
    ipIsLinklocal sa = false := by
  have haddr : sa.addr = localhost v := of_decide_eq_true hsa
  cases v with
  | ipv4 =>
      rfl
  | ipv6 =>
      rw [ipIsLinklocal, haddr]
      rfl

/-- Only a pong from the own host brings its address. -/
theorem addresses_daemonStep
    (hA : ∀ sa, ipIsLinklocal sa = false → ipIsLocalhost sa = false → A sa) {e : Event v}
    (hpong : LocalPong conf s e → ∀ sa, ipIsLocalhost sa = true → A sa)
    (h : Addresses A s.nbhd) (hrun : daemonStep conf s e = .ok s') :
    Addresses A s'.nbhd := by
  cases e with
  | dns datagram sa =>
      rw [nbhd_resolves (resolves_rParse hrun)]
      exact h
  | cron now resolved =>
      exact addresses_tick (tick_p2pCron hrun) h
  | p2p now behind datagram sa =>
      rcases p2pParse_cases hrun with
        rfl | ⟨hlocal, hvalid, packet, ⟨-, hrun⟩ | ⟨hmessage, hrun⟩⟩
      · exact h
      · exact addresses_calm hA (calm_p2pRequest hlocal hrun) h
      rcases p2pReply_cases hrun with
        ⟨rfl, -⟩ | ⟨head, hhead, ⟨rfl, -⟩ | ⟨ti, type, s₁, hti, htype, hhandled, rfl⟩⟩
      · exact h
      · exact h.nbhdPut head.id (hA sa hlocal)
      rw [nbhd_replyCleanup]
      have hput : Addresses A (nbhdPut conf.nodeId s.nbhd head.id sa) :=
        h.nbhdPut head.id (hA sa hlocal)
      rcases hhandled with rfl | ⟨reply, hreply, hrun⟩
      · exact hput
      refine addresses_handleReply hA (fun hkind hknown => ?_) hput hrun
      cases hhost : ipIsLocalhost sa with
      | false =>
          exact hA sa hlocal hhost
      | true =>
          rw [nbhdPut_of_localhost hhost] at hknown
          refine hpong ⟨hhost, hvalid, packet, head, ti, type, hmessage, hhead, hti, htype, ?_,
            hknown⟩ sa hhost
          exact replyBody_eq_pong (hkind ▸ hreply)

/-- The node is in a bucket. -/
def InTable (t : Nbhd v) (n : UdpNode v) : Prop :=
  ∃ b ∈ t.bucket, ∃ r ∈ b.nodes, t.heap.get r = some n

/-- A pong from the own host is handled, and its node moves there. -/
theorem daemonStep_localPong
    (htable : NbhdInv s.nbhd) {e : Event v} (hpong : LocalPong conf s e) :
    ∃ s', daemonStep conf s e = .ok s' ∧
      ∃ n, InTable s'.nbhd n ∧ ipIsLocalhost n.cAddr = true := by
  cases e with
  | dns datagram sa | cron now resolved =>
      cases hpong
  | p2p now behind datagram sa =>
      obtain ⟨hhost, hvalid, packet, head, ti, type, hmessage, hhead, hti, htype, hkind, hknown⟩ :=
        hpong
      obtain ⟨r, hr⟩ := Option.isSome_iff_exists.mp hknown
      obtain ⟨hmem, n, hget, -⟩ := (htable.hash_iff _ _).mp hr
      obtain ⟨b, hb, hrb⟩ := List.mem_flatMap.mp hmem
      let s₀ : Main v := { s with sent := [], p2p := { s.p2p with timeNow := now } }
      have hpongs : replyBody v type head.r = .ok .pong := by
        rcases hkind with rfl | rfl <;> rfl
      have hrun : daemonStep conf s (.p2p now behind datagram sa) =
          .ok (replyCleanup type ti (p2pPong s₀ head.id sa)) := by
        refine (p2pParse_of_reply hvalid hmessage (linklocal_of_localhost hhost) conf behind now
          { s with sent := [] }).trans ?_
        refine (p2pReply_handled (s := s₀) hhead hti htype hpongs sa).trans ?_
        rw [nbhdPut_of_localhost hhost]
        rfl
      refine ⟨_, hrun, nodePonged n sa (timeAdd5MinApprox s₀.now s₀.random).1, ?_, hhost⟩
      rw [nbhd_replyCleanup, p2pPong, if_pos (by exact hknown)]
      dsimp only
      rw [nbhdPonged, show hashGet s₀.nbhd.hash head.id.bytes = some r from hr]
      refine ⟨b, hb, r, hrb, ?_⟩
      exact (Heap.get_modify_self _ _ _).trans (congrArg (Option.map _) hget)

/-- What is expected of a node of the table. -/
structure CleanNode (conf : Conf) (n : UdpNode v) : Prop where
  notMe : n.id ≠ conf.nodeId
  notLocalhost : ipIsLocalhost n.cAddr = false
  notLinklocal : ipIsLinklocal n.cAddr = false

theorem TableInv.inTable_ne_me
    {me : NodeId} {t : Nbhd v} {n : UdpNode v} (h : TableInv me t) (hn : InTable t n) :
    n.id ≠ me := by
  obtain ⟨b, hb, r, hr, hget⟩ := hn
  exact h.ne_me (List.mem_flatMap.mpr ⟨b, hb, hr⟩) hget

/-- In every run no node of the table has the own identifier or a link-local
address.  None has the address of the own host in exactly the runs in which the
own host never replies to a ping under the identifier of a known node. -/
theorem table_clean_iff
    (conf : Conf) (now : Int) (identity : List Identity) (rnd : Random) (names : Bytes)
    (events : List (Event v)) :
    (∀ pre s, pre <+: events →
        run (daemonStep conf) (mainInit now identity rnd names) pre = .ok s →
        ∀ n, InTable s.nbhd n → n.id ≠ conf.nodeId ∧ ipIsLinklocal n.cAddr = false) ∧
      ((∀ pre s, pre <+: events →
          run (daemonStep conf) (mainInit now identity rnd names) pre = .ok s →
          ∀ n, InTable s.nbhd n → CleanNode conf n) ↔
        Along (fun s e => ¬ LocalPong conf s e) (daemonStep conf)
          (mainInit now identity rnd names) events) := by
  have hinit := queriesInv_loggedInit (v := v) conf now identity rnd names
  have hqueries : ∀ (s : Main v) (e : Event v) (s' : Main v),
      (∃ queries, QueriesInv conf s queries) → daemonStep conf s e = .ok s' →
      ∃ queries, QueriesInv conf s' queries :=
    fun s e s' h hstep => queriesInv_acts (acts_daemonStep hstep) h
  have hempty : ∀ A : Ip v → Prop,
      Addresses A (mainInit now identity rnd names : Main v).nbhd := by
    intro A r n hget
    cases hget
  constructor
  · rintro pre s - hrun n hn
    obtain ⟨queries, hinv⟩ := run_keeps hqueries hrun ⟨_, hinit⟩
    have haddresses := run_keeps
      (p := fun s : Main v => Addresses (fun sa => ipIsLinklocal sa = false) s.nbhd)
      (fun s e s' h hstep => addresses_daemonStep (fun _ hlocal _ => hlocal)
        (fun _ _ hhost => linklocal_of_localhost hhost) h hstep) hrun (hempty _)
    obtain ⟨b, hb, r, hr, hget⟩ := id hn
    exact ⟨hinv.table.inTable_ne_me hn, haddresses r n hget⟩
  · have hkept : ∀ (s : Main v) (e : Event v) (s' : Main v),
        (∃ queries, QueriesInv conf s queries) ∧
          Addresses (fun sa => ipIsLocalhost sa = false ∧ ipIsLinklocal sa = false) s.nbhd →
        ¬ LocalPong conf s e → daemonStep conf s e = .ok s' →
        (∃ queries, QueriesInv conf s' queries) ∧
          Addresses (fun sa => ipIsLocalhost sa = false ∧ ipIsLinklocal sa = false) s'.nbhd := by
      rintro s e s' ⟨hinv, haddresses⟩ hok hstep
      exact ⟨hqueries s e s' hinv hstep, addresses_daemonStep
        (fun _ hlocal hhost => ⟨hhost, hlocal⟩) (fun hpong => absurd hpong hok) haddresses hstep⟩
    refine throughout_iff_along hqueries hkept ?_ ?_ events ⟨_, hinit⟩ ⟨⟨_, hinit⟩, hempty _⟩
    · rintro s ⟨⟨queries, hinv⟩, haddresses⟩ n hn
      obtain ⟨b, hb, r, hr, hget⟩ := id hn
      exact ⟨hinv.table.inTable_ne_me hn, (haddresses r n hget).1, (haddresses r n hget).2⟩
    · rintro s e ⟨queries, hinv⟩ hpong
      obtain ⟨s', hstep, n, hn, hhost⟩ := daemonStep_localPong hinv.table.inv (not_not.mp hpong)
      refine ⟨s', hstep, fun hclean => ?_⟩
      rw [(hclean n hn).notLocalhost] at hhost
      cases hhost

/-- A node pings a bootstrap node, learns of another one by its query, and gets a pong
under the identifier of the latter from its own host. -/
def localPongRun : List (Event .ipv4) :=
  [.cron 100 [[.ofQuad 10 0 0 8 (26, 225)]],
    .p2p 101 [] (benEncRec (pingDict .zero [0, 0, 0, 1])) (.ofQuad 10 0 0 9 (26, 225)),
    .p2p 102 [] (benEncRec (pongDict .zero [8, 9, 10, 11])) (.ofQuad 127 0 0 1 (26, 225))]

/-- The table then refers to the own host. -/
theorem table_clean_fails :
    ¬ ∀ (conf : Conf) (now : Int) (identity : List Identity) (rnd : Random) (names : Bytes)
      (events : List (Event .ipv4)) (pre : List (Event .ipv4)) (s : Main .ipv4),
      pre <+: events → run (daemonStep conf) (mainInit now identity rnd names) pre = .ok s →
        ∀ n, InTable s.nbhd n → CleanNode conf n := by
  intro h
  have hlast : (run (daemonStep onesConf) (mainInit 0 [] ⟨fun _ => 0, UInt8.ofNat⟩ [])
      localPongRun).map (fun s => s.nbhd.bucket.any fun b => b.nodes.any fun r =>
        (s.nbhd.heap.get r).any fun n => ipIsLocalhost n.cAddr) = .ok true := by
    decide +kernel
  obtain ⟨s, hrun, hany⟩ := map_eq_ok hlast
  obtain ⟨b, hb, hany⟩ := List.any_eq_true.mp hany
  obtain ⟨r, hr, hany⟩ := List.any_eq_true.mp hany
  obtain ⟨n, hget, hhost⟩ := (Option.any_eq_true _ _).mp hany
  have hclean := h onesConf 0 [] _ [] localPongRun localPongRun s List.prefix_rfl hrun n
    ⟨b, hb, r, hr, hget⟩
  rw [hclean.notLocalhost] at hhost
  cases hhost

end Acts
end Torrentkino
