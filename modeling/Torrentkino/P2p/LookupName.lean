import Torrentkino.Dns.SameName
import Torrentkino.P2p.Quiet

/-!
# The names in the responses of remote lookups

A remote lookup keeps a copy of the DNS message that started it, but the names
of that message stay in the buffer of `r_parse`, which the next query
overwrites.  The response that is sent when the first values arrive takes its
names from there.

To say what a response should look like, the run is accompanied by a record of
the query that started each lookup: its sender, the message as it was decoded,
and the content of the name buffer at that time.

**Result.** `lookup_responses`: in a run in which no query overwrites the name
while a lookup waits, every lookup answers the query that started it.
-/

namespace Torrentkino

open Memory CString Simulation

/-- A decoded DNS query. -/
structure DnsQuery (v : Build) where
  sa : Ip v
  msg : DnsMsg
  names : Bytes

/-- The datagram is the response to the query: the one that `r_success` writes
for some pairs right after the query was decoded. -/
def Answers {v : Build} (q : DnsQuery v) (raw : Bytes) : Prop :=
  ∃ (pairs : List (Pair v)) (w : Writer), pairs.length ≤ 8 ∧
    rSuccess v q.names q.msg (pairs.flatMap (·.bytes)) = .ok (some w) ∧ raw = w.out

section LookupName

variable {v : Build} {conf : Conf}

/-! ## The response -/

/-- The response of `r_success` to at most eight pairs. -/
theorem rSuccess_pairs
    (names : Bytes) (msg : DnsMsg) {pairs : List (Pair v)} (hlen : pairs.length ≤ 8)
    (hne : pairs ≠ []) :
    rSuccess v names msg (pairs.flatMap (·.bytes)) =
      .ok (some (pEncodeResponse names
        (repliedMsg v names msg (buffer (pairs.flatMap (·.bytes)) []) pairs.length) .empty)) := by
  have hpair : 0 < v.ipSizeMetaPair := by
    cases v <;> decide
  have hbytes : (pairs.flatMap (·.bytes)).length = pairs.length * v.ipSizeMetaPair :=
    length_flatMap_of_length_eq (fun pair => pair.length_eq) pairs
  have hcount : (pairs.flatMap (·.bytes)).length / v.ipSizeMetaPair = pairs.length := by
    rw [hbytes, Nat.mul_div_cancel _ hpair]
  have hpos : (pairs.flatMap (·.bytes)).length ≠ 0 := by
    rw [hbytes]
    exact Nat.mul_ne_zero (Nat.ne_of_gt (List.length_pos_iff.mpr hne)) (Nat.ne_of_gt hpair)
  rw [rSuccess, if_neg hpos, pReplyMsg_answers v names msg _ (hcount.symm ▸ hlen), hcount]
  rfl

/-- It takes from the buffer the name only. -/
theorem rSuccess_congr
    {names names' : Bytes} (hname : nameAt names 0 = nameAt names' 0)
    {msg : DnsMsg} (hqu : msg.question.qName = 0)
    {pairs : List (Pair v)} (hlen : pairs.length ≤ 8) :
    rSuccess v names msg (pairs.flatMap (·.bytes)) =
      rSuccess v names' msg (pairs.flatMap (·.bytes)) := by
  rcases eq_or_ne pairs [] with rfl | hne
  · rfl
  · rw [rSuccess_pairs names msg hlen hne, rSuccess_pairs names' msg hlen hne,
      pEncodeResponse_congr hname hqu]

/-- A response has the id of the query and, behind the header, its name, type
and class. -/
theorem Answers.question {q : DnsQuery v} {raw : Bytes} (h : Answers q raw) :
    ∃ fields rest : Bytes, fields.length = 10 ∧
      raw = be16 q.msg.id ++ fields ++
        encodeLabels [] (nameAt q.names q.msg.question.qName) ++
          be16 q.msg.question.qType ++ be16 q.msg.question.qClass ++ rest := by
  obtain ⟨pairs, w, hlen, hw, rfl⟩ := h
  rcases eq_or_ne pairs [] with rfl | hne
  · cases hw
  · rw [rSuccess_pairs q.names q.msg hlen hne] at hw
    cases hw
    exact pEncodeResponse_question v q.names q.msg _ _

/-! ## Steps that answer a query -/

/-- The datagram is what the lookup at `l`, which waits in this state, sends to
the initiator. -/
def Responds (s : Main v) (d : Datagram v) (l : Ref) : Prop :=
  ∃ lookup pairs w, s.transaction.lookups.get l = some lookup ∧ lookup.Waits ∧
    d = ⟨lookup.cAddr, w.out⟩ ∧ pairs.length ≤ 8 ∧
    rSuccess v s.names lookup.msg ((pairs : List (Pair v)).flatMap (·.bytes)) = .ok (some w)

/-- Like `Quiet`, but waiting lookups may respond. -/
structure Answering (s s' : Main v) : Prop where
  names : s'.names = s.names
  lookups : ∀ l lookup', s'.transaction.lookups.get l = some lookup' → lookup'.Waits →
    ∃ lookup, s.transaction.lookups.get l = some lookup ∧ SameQuery lookup lookup'
  sent : ∀ d l, Sent.dns d (some l) ∈ s'.sent →
    Sent.dns d (some l) ∈ s.sent ∨ Responds s d l

section Answering

variable {s s' s'' : Main v}

theorem Quiet.answering (h : Quiet s s') : Answering s s' where
  names := h.names
  lookups := h.lookups
  sent := fun d l hd => .inl (h.sent d l hd)

/-- Whoever responds after a quiet step would have sent the same before it. -/
theorem Responds.of_quiet
    {d : Datagram v} {l : Ref} (h : Quiet s s') (hresponds : Responds s' d l) :
    Responds s d l := by
  obtain ⟨lookup', pairs, w, hget', hwaits, rfl, hlen, hw⟩ := hresponds
  obtain ⟨lookup, hget, hsame⟩ := h.lookups l lookup' hget' hwaits
  rw [hsame.cAddr]
  rw [h.names, hsame.msg] at hw
  exact ⟨lookup, pairs, w, hget, hsame.waits hwaits, rfl, hlen, hw⟩

theorem Quiet.trans_answering (h : Quiet s s') (h' : Answering s' s'') : Answering s s'' where
  names := h'.names.trans h.names
  lookups := SameQuery.lookups_trans h.lookups h'.lookups
  sent := by
    intro d l hd
    rcases h'.sent d l hd with hold | hnew
    · exact .inl (h.sent d l hold)
    · exact .inr (hnew.of_quiet h)

theorem Answering.trans_quiet (h : Answering s s') (h' : Quiet s' s'') : Answering s s'' where
  names := h'.names.trans h.names
  lookups := SameQuery.lookups_trans h.lookups h'.lookups
  sent := fun d l hd => h.sent d l (h'.sent d l hd)

theorem cacheCompactPairs_length_le (c : Cache v) (target : NodeId) :
    (cacheCompactPairs c target).length ≤ 8 := by
  rw [cacheCompactPairs]
  split
  · exact Nat.zero_le _
  · rw [List.length_map]
    exact List.length_take_le _ _

/-- The end of `p2p_get_peers_get_values`, in a state `s` that still has the
lookup as it was found. -/
theorem answering_answerInitiator
    {l : Ref} {lookup : Lookup v} {pairs : List (Pair v)}
    (hget : ∃ lookup₁, s.transaction.lookups.get l = some lookup₁ ∧ SameQuery lookup lookup₁ ∧
      (lookup.Waits → lookup₁.Waits))
    (hsend : lookup.sendResponseToInitiator = true)
    (h : answerInitiator s l lookup pairs = .ok s') :
    Answering s s' := by
  obtain ⟨lookup₁, hget₁, hsame, hwaits₁⟩ := hget
  have hcount : ∀ (s : Main v), Quiet s
      (s.modifyLookup l fun lookup => (ldbNumberOfDnsResponses lookup).2) := by
    intro s
    refine quiet_modifyLookup fun lookup _ => ⟨fun hwaits => ?_, rfl, rfl⟩
    cases hwaits.2
  obtain ⟨put, -, cache, sent, rfl, hsent⟩ := answerInitiator_cases h
  have hquiet : Quiet s
      { s.modifyLookup l (fun lookup => (ldbNumberOfDnsResponses lookup).2) with
        cache := cache, random := put.2 } :=
    (hcount s).trans (.of_eq rfl rfl rfl)
  refine ⟨hquiet.names, hquiet.lookups, ?_⟩
  intro d q hd
  rcases List.mem_append.mp hd with hold | hnew
  · exact .inl hold
  · right
    rcases hsent with rfl | ⟨hzero, found, w, hfound, -, hw, rfl⟩
    · cases hnew
    · rw [List.mem_singleton] at hnew
      cases hnew
      rw [← hsame.cAddr]
      rw [← hsame.msg] at hw
      exact ⟨lookup₁, found, w, hget₁, hwaits₁ ⟨hsend, hzero⟩, rfl,
        hfound ▸ cacheCompactPairs_length_le _ _, hw⟩

theorem waits_ldbUpdate
    {lookup : Lookup v} (h : lookup.Waits) (id : NodeId) (token : Bytes) (sa : Ip v) :
    (ldbUpdate lookup id token sa).Waits := by
  rw [ldbUpdate]
  split <;> exact h

theorem answering_p2pGetPeersGetValues
    {id : NodeId} {ti : Ref} {token : Bytes} {values : List Ben} {sa : Ip v}
    (h : p2pGetPeersGetValues s id ti token values sa = .ok s') :
    Answering s s' := by
  rcases p2pGetPeersGetValues_cases h with rfl | ⟨l, lookup, hlookup, hcases⟩
  · exact (Quiet.refl _).answering
  have hupdate : Quiet s (s.modifyLookup l fun lookup => ldbUpdate lookup id token sa) :=
    quiet_modifyLookup fun lookup _ => sameQuery_ldbUpdate lookup id token sa
  rcases hcases with rfl | ⟨pairs, -, -, hsend, hanswer⟩
  · exact hupdate.answering
  · refine hupdate.trans_answering (answering_answerInitiator
      ⟨ldbUpdate lookup id token sa, ?_, sameQuery_ldbUpdate _ _ _ _, fun hwaits =>
        waits_ldbUpdate hwaits _ _ _⟩ hsend hanswer)
    change (s.transaction.lookups.modify l _).get l = _
    rw [Heap.get_modify_self, get_of_lookupOf hlookup]
    rfl

theorem answering_handleReply
    {id : NodeId} {ti : Ref} {tid : Bytes} {sa : Ip v} {r : Reply}
    (h : handleReply conf s id ti tid sa r = .ok s') :
    Answering s s' := by
  cases r with
  | pong =>
      cases h
      exact (acts_p2pPong conf s id sa).quiet.answering
  | findNode nodes =>
      cases h
      exact (acts_p2pFindNodeGetReply conf s nodes).quiet.answering
  | getPeersNodes token nodes =>
      cases h
      exact (quiet_p2pGetPeersGetNodes conf s id ti tid token nodes sa).answering
  | getPeersValues token values =>
      exact answering_p2pGetPeersGetValues h
  | announce =>
      cases h
      exact (Quiet.refl _).answering

theorem answering_p2pReply
    {packet : Ben} {sa : Ip v} (h : p2pReply conf s packet sa = .ok s') :
    Answering s s' := by
  rcases p2pReply_cases h with
    ⟨rfl, -⟩ | ⟨head, -, ⟨rfl, -⟩ | ⟨ti, type, s₁, -, -, hhandled, rfl⟩⟩
  · exact (Quiet.refl _).answering
  · exact (SilentActs.quiet (acts_nbhdPut conf s head.id sa)).answering
  have hput := SilentActs.quiet (acts_nbhdPut conf s head.id sa)
  refine Answering.trans_quiet ?_ (SilentActs.quiet (acts_replyCleanup conf type ti s₁))
  rcases hhandled with rfl | ⟨reply, -, hrun⟩
  · exact hput.answering
  · exact hput.trans_answering (answering_handleReply hrun)

/-- A datagram on the other socket. -/
theorem answering_p2pParse
    {behind : Bytes} {now : Int} {bencode : Raw} {sa : Ip v}
    (h : p2pParse conf behind now s bencode sa = .ok s') :
    Answering s s' := by
  have hclock : Quiet s { s with p2p := { s.p2p with timeNow := now } } := .of_eq rfl rfl rfl
  rcases p2pParse_cases h with rfl | ⟨-, -, packet, ⟨-, hrun⟩ | ⟨-, hrun⟩⟩
  · exact hclock.answering
  · exact (hclock.trans (acts_p2pRequest hrun).quiet).answering
  · exact hclock.trans_answering (answering_p2pReply hrun)

/-! ## DNS queries -/

/-- `r_parse` gets as far as decoding the name of the datagram: it has the size
of a query, the sender is not link-local, and the header says one question and
nothing else. -/
def takesName (mem : Mem) (bufsize : Nat) (sa : Ip v) : Prop :=
  12 ≤ bufsize ∧ bufsize ≤ 512 ∧ ipIsLinklocal sa = false ∧
    pGet16bits mem 6 = 0 ∧ pGet16bits mem 8 = 0 ∧ pGet16bits mem 4 = 1

/-- What `r_parse` leaves in its buffer.  Only `p_decode_domain` writes
there. -/
theorem rParse_names
    (names : Bytes) (mem : Mem) (bufsize : Nat) (sa : Ip v) :
    (rParse names mem bufsize sa).2 = names ∨
      takesName mem bufsize sa ∧
        (rParse names mem bufsize sa).2 = (pDecodeDomain names mem 12 (bufsize - 12)).2 := by
  let msg : DnsMsg := { (default : DnsMsg) with qNameBuffer := names }
  have hquery : (pDecodeQuery msg mem bufsize).2.qNameBuffer = names ∨
      (pGet16bits mem 6 = 0 ∧ pGet16bits mem 8 = 0 ∧ pGet16bits mem 4 = 1) ∧
        (pDecodeQuery msg mem bufsize).2.qNameBuffer =
          (pDecodeDomain names mem 12 (bufsize - 12)).2 := by
    rcases pDecodeQuery_cases msg mem bufsize with ⟨-, hname⟩ | ⟨⟨hqd, han, hns⟩, hname, -⟩
    · exact .inl hname
    · exact .inr ⟨⟨han, hns, hqd⟩, hname⟩
  rw [rParse]
  split
  · exact .inl rfl
  rename_i hlow
  split
  · exact .inl rfl
  rename_i hhigh
  split
  · exact .inl rfl
  rename_i hlocal
  rcases hquery with h | ⟨hheader, h⟩
  · exact .inl h
  · exact .inr ⟨⟨Nat.not_lt.mp hlow, Nat.not_lt.mp hhigh, by simpa using hlocal, hheader⟩, h⟩

/-- A new lookup, and quiet steps after it. -/
theorem quiet_startLookup
    (s : Main v) (target : NodeId) (type : TidType) (query : Option (Ip v × DnsMsg)) :
    Quiet { s with
        transaction := { s.transaction with
          lookups := s.transaction.lookups.alloc (ldbInit target query) } }
      (startLookup conf s target type query) := by
  refine Quiet.trans ?_ (Quiet.foldl (quiet_lookupQuery conf _ _ target) _ _)
  exact .of_eq rfl rfl rfl

theorem quiet_rSuccess_none
    {sa : Ip v} {msg : DnsMsg} {list : List (Pair v)}
    (h : s.rSuccess none sa msg list = .ok s') :
    Quiet s s' := by
  rw [Main.rSuccess] at h
  split at h
  · cases h
  · cases h
    exact .refl _
  · cases h
    refine ⟨rfl, fun _ lookup' hget _ => ⟨lookup', hget, .refl _⟩, ?_⟩
    intro d l hd
    simpa using hd

end Answering

/-- The query that the event starts a remote lookup for: `r_parse` accepts it,
and neither the cache nor the value store knows the name. -/
def startedBy (conf : Conf) (s : Main v) : Event v → Option (DnsQuery v)
  | .dns datagram sa =>
      let datagram := datagram.take udpBuf
      match rParse s.names (buffer datagram []) datagram.length sa with
      | (.lookup msg, names) =>
          let target := idHostid conf (nameAt names msg.question.qName)
          if cacheCompactPairs s.cache target = [] ∧ valCompactPairs s.value target = [] then
            some ⟨sa, msg, names⟩
          else none
      | _ => none
  | _ => none

/-- The state of the daemon with the queries that its lookups were started
by. -/
structure Traced (v : Build) where
  main : Main v
  origin : Ref → Option (DnsQuery v)

/-- One event.  The new lookup of a remote search is the next heap object. -/
def tracedStep (conf : Conf) (t : Traced v) (e : Event v) : Except Fault (Traced v) :=
  (daemonStep conf t.main e).map fun main =>
    { main := main
      origin := match startedBy conf t.main e with
        | none => t.origin
        | some q => Function.update t.origin t.main.transaction.lookups.fresh (some q) }

/-- Some lookup waits for its first values. -/
def SomeLookupWaits (s : Main v) : Prop :=
  ∃ l lookup, s.transaction.lookups.get l = some lookup ∧ lookup.Waits

/-- A datagram whose name is decoded while a lookup waits leaves the name in
the buffer that was there. -/
def KeepsName (t : Traced v) : Event v → Prop
  | .dns datagram sa =>
      let datagram := datagram.take udpBuf
      SomeLookupWaits t.main → takesName (buffer datagram []) datagram.length sa →
        nameAt (pDecodeDomain t.main.names (buffer datagram []) 12 (datagram.length - 12)).2 0 =
          nameAt t.main.names 0
  | _ => True

/-- The responses that lookups send in the step are answers to the queries that
started them, and go to their senders. -/
def RespondsToOrigin (_ : Traced v) (_ : Event v) (t' : Traced v) : Prop :=
  ∀ d l, Sent.dns d (some l) ∈ t'.main.sent →
    ∃ q, t'.origin l = some q ∧ d.addr = q.sa ∧ Answers q d.raw

/-- Waiting lookups have the query that started them, and the name buffer has
its name. -/
def NamesInv (t : Traced v) : Prop :=
  ∀ l lookup, t.main.transaction.lookups.get l = some lookup → lookup.Waits →
    ∃ q, t.origin l = some q ∧ lookup.cAddr = q.sa ∧ lookup.msg = q.msg ∧
      q.msg.question.qName = 0 ∧ nameAt t.main.names 0 = nameAt q.names 0

/-- Whatever responds in a state with the invariant answers its query. -/
theorem NamesInv.answers
    {t : Traced v} (hinv : NamesInv t) {d : Datagram v} {l : Ref} (h : Responds t.main d l) :
    ∃ q, t.origin l = some q ∧ d.addr = q.sa ∧ Answers q d.raw := by
  obtain ⟨lookup, pairs, w, hget, hwaits, rfl, hlen, hw⟩ := h
  obtain ⟨q, horigin, haddr, hmsg, hqu, hname⟩ := hinv l lookup hget hwaits
  refine ⟨q, horigin, haddr, pairs, w, hlen, ?_, rfl⟩
  rw [hmsg] at hw
  rw [← rSuccess_congr hname hqu hlen]
  exact hw

/-- The invariant carries over steps that only answer queries. -/
theorem namesInv_answering
    {t t' t₀ : Traced v} {e : Event v} (hinv : NamesInv t)
    (hanswering : Answering t.main t'.main)
    (hsent : t.main.sent = [])
    (horigin : t'.origin = t.origin) :
    RespondsToOrigin t₀ e t' ∧ NamesInv t' := by
  constructor
  · intro d l hd
    rw [horigin]
    rcases hanswering.sent d l hd with hold | hnew
    · rw [hsent] at hold
      cases hold
    · exact hinv.answers hnew
  · intro l lookup' hget hwaits
    obtain ⟨lookup, hget', hsame⟩ := hanswering.lookups l lookup' hget hwaits
    obtain ⟨q, hq, haddr, hmsg, hqu, hname⟩ := hinv l lookup hget' (hsame.waits hwaits)
    rw [horigin, hanswering.names]
    exact ⟨q, hq, hsame.cAddr.trans haddr, hsame.msg.trans hmsg, hqu, hname⟩

/-- The new content of the name buffer does not bother the waiting lookups. -/
theorem namesInv_rParse
    {t : Traced v} {datagram : Bytes} {sa : Ip v} (hinv : NamesInv t)
    (hkeeps : KeepsName t (.dns datagram sa)) :
    NamesInv
      { t with
        main := { t.main with
          sent := []
          names := (rParse t.main.names (buffer (datagram.take udpBuf) [])
            (datagram.take udpBuf).length sa).2 } } := by
  intro l lookup hget hwaits
  obtain ⟨q, horigin, haddr, hmsg, hqu, hname⟩ := hinv l lookup hget hwaits
  refine ⟨q, horigin, haddr, hmsg, hqu, ?_⟩
  rw [← hname]
  rcases rParse_names t.main.names (buffer (datagram.take udpBuf) [])
    (datagram.take udpBuf).length sa with hsame | ⟨htakes, hdecoded⟩
  · exact congrArg (nameAt · 0) hsame
  · refine Eq.trans (congrArg (nameAt · 0) hdecoded) ?_
    exact hkeeps ⟨l, lookup, hget, hwaits⟩ htakes

/-- A lookup that starts with its own name in the buffer. -/
theorem namesInv_alloc
    {t : Traced v} (hinv : NamesInv t) (target : NodeId) (sa : Ip v) {msg : DnsMsg}
    (hqu : msg.question.qName = 0) :
    NamesInv
      { main := { t.main with
          transaction := { t.main.transaction with
            lookups := t.main.transaction.lookups.alloc (ldbInit target (some (sa, msg))) } }
        origin := Function.update t.origin t.main.transaction.lookups.fresh
          (some ⟨sa, msg, t.main.names⟩) } := by
  intro l lookup hget hwaits
  dsimp only at hget ⊢
  rcases eq_or_ne l t.main.transaction.lookups.fresh with rfl | hl
  · rw [Heap.get_alloc_self] at hget
    cases hget
    exact ⟨_, Function.update_self _ _ _, rfl, rfl, hqu, rfl⟩
  · rw [Heap.get_alloc_of_ne _ _ hl] at hget
    rw [Function.update_of_ne hl]
    exact hinv l lookup hget hwaits

/-- The two ways `r_lookup` goes: the name is known, or a lookup starts. -/
theorem rLookup_cases
    {s s' : Main v} {hostname : Bytes} {sa : Ip v} {msg : DnsMsg}
    (h : rLookup conf s hostname sa msg = .ok s') :
    (¬ (cacheCompactPairs s.cache (idHostid conf hostname) = [] ∧
        valCompactPairs s.value (idHostid conf hostname) = []) ∧ Quiet s s') ∨
    (cacheCompactPairs s.cache (idHostid conf hostname) = [] ∧
        valCompactPairs s.value (idHostid conf hostname) = []) ∧
      Quiet { s with
        transaction := { s.transaction with
          lookups := s.transaction.lookups.alloc
            (ldbInit (idHostid conf hostname) (some (sa, msg))) } } s' := by
  rw [rLookup] at h
  dsimp only at h
  have hpairs : (cacheCompactList s.now s.cache (idHostid conf hostname)).1 =
      cacheCompactPairs s.cache (idHostid conf hostname) := rfl
  rw [← hpairs]
  generalize cacheCompactList s.now s.cache (idHostid conf hostname) = cached at h
  split at h
  · rename_i hcached
    refine .inl ⟨fun hnone => hcached hnone.1, Quiet.trans ?_ (quiet_rSuccess_none h)⟩
    exact .of_eq rfl rfl rfl
  rename_i hcached
  split at h
  · rename_i hknown
    refine .inl ⟨fun hnone => hknown hnone.2, Quiet.trans ?_ (quiet_rSuccess_none h)⟩
    exact .of_eq rfl rfl rfl
  · rename_i hknown
    cases h
    refine .inr ⟨⟨not_not.mp hcached, not_not.mp hknown⟩, Quiet.trans ?_
      (quiet_startLookup _ _ _ _)⟩
    exact .of_eq rfl rfl rfl

/-- The step of the daemon in a traced step. -/
theorem tracedStep_ok
    {t t' : Traced v} {e : Event v} (h : tracedStep conf t e = .ok t') :
    daemonStep conf t.main e = .ok t'.main ∧
      t'.origin = match startedBy conf t.main e with
        | none => t.origin
        | some q => Function.update t.origin t.main.transaction.lookups.fresh (some q) := by
  rw [tracedStep] at h
  cases hrun : daemonStep conf t.main e with
  | error e =>
      rw [hrun] at h
      cases h
  | ok main =>
      rw [hrun] at h
      cases h
      exact ⟨rfl, rfl⟩

/-- A DNS query. -/
theorem namesInv_dns
    {t t' : Traced v} {datagram : Bytes} {sa : Ip v} (hinv : NamesInv t)
    (hkeeps : KeepsName t (.dns datagram sa))
    (h : tracedStep conf t (.dns datagram sa) = .ok t') :
    RespondsToOrigin t (.dns datagram sa) t' ∧ NamesInv t' := by
  have hinv₁ := namesInv_rParse hinv hkeeps
  obtain ⟨hrun, horigin⟩ := tracedStep_ok h
  obtain ⟨main, origin⟩ := t'
  simp only [daemonStep, startedBy, Main.rParse] at hrun horigin
  generalize hparsed : rParse t.main.names (buffer (datagram.take udpBuf) [])
    (datagram.take udpBuf).length sa = parsed at hrun horigin hinv₁
  obtain ⟨verdict, names⟩ := parsed
  cases verdict with
  | drop reason =>
      cases hrun
      exact namesInv_answering hinv₁ (Quiet.refl _).answering rfl horigin
  | failure msg =>
      cases hrun
      refine namesInv_answering hinv₁ (Quiet.answering ⟨rfl, ?_, ?_⟩) rfl horigin
      · exact fun _ lookup' hget _ => ⟨lookup', hget, .refl _⟩
      · intro d l hd
        simp at hd
  | lookup msg =>
      dsimp only at hrun horigin
      rcases rLookup_cases hrun with ⟨hknown, hquiet⟩ | ⟨hunknown, hquiet⟩
      · rw [if_neg hknown] at horigin
        exact namesInv_answering hinv₁ hquiet.answering rfl horigin
      · rw [if_pos hunknown] at horigin
        exact namesInv_answering (namesInv_alloc hinv₁ _ sa (rParse_lookup hparsed))
          hquiet.answering rfl horigin

/-- The invariant without the datagrams of the last event. -/
theorem NamesInv.begin
    {t : Traced v} (hinv : NamesInv t) :
    NamesInv { t with main := { t.main with sent := [] } } :=
  hinv

theorem namesInv_step
    (t : Traced v) (e : Event v) (t' : Traced v) (hinv : NamesInv t) (hkeeps : KeepsName t e)
    (h : tracedStep conf t e = .ok t') :
    RespondsToOrigin t e t' ∧ NamesInv t' := by
  cases e with
  | dns datagram sa =>
      exact namesInv_dns hinv hkeeps h
  | p2p now behind datagram sa =>
      obtain ⟨hrun, horigin⟩ := tracedStep_ok h
      exact namesInv_answering hinv.begin (answering_p2pParse hrun) rfl horigin
  | cron now resolved =>
      obtain ⟨hrun, horigin⟩ := tracedStep_ok h
      exact namesInv_answering hinv.begin (acts_p2pCron hrun).quiet.answering rfl horigin

/-- The state after the start. -/
def tracedInit (now : Int) (identity : List Identity) (rnd : Random) (names : Bytes) :
    Traced v where
  main := mainInit now identity rnd names
  origin := fun _ => none

/-- In every run in which no query overwrites the name while a lookup waits for
its first values, each response that a remote lookup sends answers the query
that started the lookup, with its id and its name, and goes to its sender. -/
theorem lookup_responses
    (conf : Conf) (now : Int) (identity : List Identity) (rnd : Random) (names : Bytes)
    (events : List (Event v))
    (hkeeps : Along KeepsName (tracedStep conf) (tracedInit now identity rnd names) events) :
    AllSteps RespondsToOrigin (tracedStep conf) (tracedInit now identity rnd names) events := by
  refine run_allSteps namesInv_step events ?_ hkeeps
  intro l lookup hget _
  cases hget

end LookupName

/-! ## Two queries in flight -/

/-- The query for the address of a host with a one-letter name in `p2p`. -/
def hostQuery (id letter : UInt8) : Bytes :=
  be16 id.toNat ++ [1, 0, 0, 1, 0, 0, 0, 0, 0, 0] ++
    [1, letter, 3, 112, 50, 112, 0] ++ [0, 1, 0, 1]

/-- The digests are those of `a.p2p` and `b.p2p`. -/
def hostsConf : Conf :=
  { onesConf with
    sha1Hash := fun name =>
      if name = [97, 46, 112, 50, 112] then
        ⟨[188, 224, 134, 31, 251, 27, 223, 29, 139, 57,
          233, 215, 52, 252, 227, 205, 134, 228, 8, 2], rfl⟩
      else
        ⟨[55, 4, 252, 159, 134, 57, 161, 49, 217, 204,
          105, 131, 45, 2, 8, 74, 123, 192, 127, 232], rfl⟩ }

/-- The state after the start. -/
def hostsInit : Traced .ipv4 :=
  tracedInit 0 [] ⟨fun _ => 0, UInt8.ofNat⟩ (List.replicate 256 0)

/-- A node makes itself known. -/
def nodePings : Event .ipv4 :=
  .p2p 0 [] (benEncRec (pingDict .zero [0, 0, 0, 1])) (.ofQuad 10 0 0 9 (26, 225))

/-- A client asks for `a.p2p`. -/
def asksForA : Event .ipv4 :=
  .dns (hostQuery 1 97) (.ofQuad 10 0 0 1 (200, 1))

/-- A client asks for `b.p2p`. -/
def asksForB : Event .ipv4 :=
  .dns (hostQuery 2 98) (.ofQuad 10 0 0 2 (200, 2))

/-- The node replies to the first `get_peers` with the address of a host. -/
def nodeReplies : Event .ipv4 :=
  .p2p 1 []
    (benEncRec (getPeersValuesDict .ipv4 .zero [10, 0, 0, 7, 31, 144] [1, 2, 3, 4] [8, 9, 10, 11]))
    (.ofQuad 10 0 0 9 (26, 225))

/-- The response with the question and the answer for a one-letter name. -/
def hostResponse (letter : UInt8) : Bytes :=
  [0, 1, 128, 0, 0, 1, 0, 1, 0, 0, 0, 0] ++
    [1, letter, 3, 112, 50, 112, 0] ++ [0, 1, 0, 1] ++
    [1, letter, 3, 112, 50, 112, 0] ++ [0, 1, 0, 1, 0, 0, 1, 44, 0, 4, 10, 0, 0, 7]

/-- Another client asks for `a.p2p` as well. -/
def alsoAsksForA : Event .ipv4 :=
  .dns (hostQuery 3 97) (.ofQuad 10 0 0 3 (200, 3))

/-- A second query for the same name leaves the name in the buffer, and the response to
the first one is the one for `a.p2p`. -/
theorem lookup_responses_sameName :
    Along KeepsName (tracedStep hostsConf) hostsInit
        [nodePings, asksForA, alsoAsksForA, nodeReplies] ∧
      AllSteps RespondsToOrigin (tracedStep hostsConf) hostsInit
        [nodePings, asksForA, alsoAsksForA, nodeReplies] ∧
      (run (tracedStep hostsConf) hostsInit
          [nodePings, asksForA, alsoAsksForA, nodeReplies]).map (fun t => t.main.sent) =
        .ok [.dns ⟨⟨[10, 0, 0, 1], (200, 1), rfl⟩, hostResponse 97⟩ (some 0)] := by
  have hkeeps : Along KeepsName (tracedStep hostsConf) hostsInit
      [nodePings, asksForA, alsoAsksForA, nodeReplies] := by
    refine ⟨trivial, fun t ht => ⟨?_, fun t' ht' => ⟨?_, fun _ _ => ⟨trivial, fun _ _ => trivial⟩⟩⟩⟩
    · -- No lookup exists yet.
      rintro ⟨l, lookup, hget, -⟩
      have hfresh : (tracedStep hostsConf hostsInit nodePings).map
          (fun t => t.main.transaction.lookups.fresh) = .ok 0 := by
        decide +kernel
      rw [ht] at hfresh
      have hzero : t.main.transaction.lookups.fresh = 0 := Except.ok.inj hfresh
      exact absurd (hzero ▸ Heap.lt_fresh hget) (Nat.not_lt_zero l)
    · -- The buffer has the name already.
      intro _ _
      have hsame : (run (tracedStep hostsConf) hostsInit [nodePings, asksForA]).map
          (fun t => decide (nameAt (pDecodeDomain t.main.names
            (buffer (hostQuery 3 97) []) 12 11).2 0 = nameAt t.main.names 0)) = .ok true := by
        decide +kernel
      have hrun : run (tracedStep hostsConf) hostsInit [nodePings, asksForA] = .ok t' := by
        rw [run, ht]
        change run (tracedStep hostsConf) t [asksForA] = _
        rw [run, ht']
        rfl
      rw [hrun] at hsame
      exact of_decide_eq_true (Except.ok.inj hsame)
  exact ⟨hkeeps, lookup_responses hostsConf 0 [] ⟨fun _ => 0, UInt8.ofNat⟩
    (List.replicate 256 0) _ hkeeps, by decide +kernel⟩

/-- With a second query in between the response carries the name `b.p2p`. -/
theorem not_respondsToOrigin_interleaved :
    ¬ AllSteps RespondsToOrigin (tracedStep hostsConf) hostsInit
      ([nodePings, asksForA, asksForB] ++ [nodeReplies]) := by
  intro h
  have hmap : (run (tracedStep hostsConf) hostsInit
        ([nodePings, asksForA, asksForB] ++ [nodeReplies])).map
      (fun t => (t.main.sent, (t.origin 0).map
        fun q => encodeLabels [] (nameAt q.names q.msg.question.qName))) =
      .ok ([.dns ⟨⟨[10, 0, 0, 1], (200, 1), rfl⟩, hostResponse 98⟩ (some 0)],
        some [1, 97, 3, 112, 50, 112, 0]) := by
    decide +kernel
  cases hrun : run (tracedStep hostsConf) hostsInit
      ([nodePings, asksForA, asksForB] ++ [nodeReplies]) with
  | error e =>
      rw [hrun] at hmap
      cases hmap
  | ok t =>
      rw [hrun] at hmap
      obtain ⟨hsent, hname⟩ := Prod.ext_iff.mp (Except.ok.inj hmap)
      dsimp only at hsent hname
      obtain ⟨t₁, hresponds⟩ := h.last hrun
      obtain ⟨q, horigin, -, hanswers⟩ :=
        hresponds _ 0 (hsent ▸ List.mem_singleton_self _)
      obtain ⟨fields, rest, hfields, hraw⟩ := hanswers.question
      rw [horigin, Option.map_some, Option.some.injEq] at hname
      rw [hname] at hraw
      -- The first label of the question is behind the header of twelve bytes.
      have hletter := congrArg (fun raw => (raw.drop 12).take 2) hraw
      simp [hostResponse, be16, hfields] at hletter

end Torrentkino
