import Torrentkino.Dns.Query
import Torrentkino.Shr.Str

/-!
# `p2p/resolver.c`

`r_parse` decodes a datagram into a local `DNS_MSG`, checks the name, and looks
the name up or answers with an empty message.  The name stays in the
`qName_buffer` of that local variable, which every call reuses: `rParse` takes
the content that the previous call has left there and returns the one it
leaves.

The checks of `r_parse` are the model's `rParse`; what happens to an accepted
query depends on the state of the daemon and is modelled with it.

**Result.**
* `rSuccess_fits_iff`: the response to an accepted query stays inside the
  buffer of `r_success` exactly when `responseLength` does.
-/

namespace Torrentkino

open Memory CString

/-- Why `r_parse` drops a datagram. -/
inductive RDrop where
  /-- Fewer than 12 bytes. -/
  | tooFewBytes
  /-- More than 512 bytes. -/
  | tooManyBytes
  /-- The sender has a link-local address. -/
  | linkLocal
  /-- The query could not be decoded. -/
  | query (e : QueryError)
  /-- The name has more than 255 characters. -/
  | hostnameTooLong
  /-- The name has a character that no hostname has. -/
  | invalidHostname
deriving DecidableEq, Repr

/-- What `r_parse` does with a datagram. -/
inductive RVerdict where
  | drop (reason : RDrop)
  /-- `r_lookup` -/
  | lookup (msg : DnsMsg)
  /-- `r_failure` -/
  | failure (msg : DnsMsg)

/-- The checks of `r_parse` behind `p_decode_query`. -/
def rVerdict (v : Build) (result : Except QueryError Unit) (msg : DnsMsg) : RVerdict :=
  match result with
  | .error e => .drop (.query e)
  | .ok () =>
      let hostname := nameAt msg.qNameBuffer msg.question.qName
      if hostname.length > 255 then .drop .hostnameTooLong
      else if !strValidHostname hostname then .drop .invalidHostname
      else if msg.question.qType = v.addrRecordType ∨ msg.question.qType = srvRecordType then
        .lookup msg
      else
        .failure msg

/-- The checks of `r_parse`.  `names` is the content of `msg.qName_buffer`. -/
def rParse {v : Build} (names : Bytes) (mem : Mem) (bufsize : Nat) (sa : Ip v) :
    RVerdict × Bytes :=
  if bufsize < 12 then (.drop .tooFewBytes, names)
  else if bufsize > 512 then (.drop .tooManyBytes, names)
  else if ipIsLinklocal sa then (.drop .linkLocal, names)
  else
    let query := pDecodeQuery { (default : DnsMsg) with qNameBuffer := names } mem bufsize
    (rVerdict v query.1 query.2, query.2.qNameBuffer)

/-- The message that `p_decode_query` leaves, from an otherwise fresh one. -/
def decodedMsg (names : Bytes) (mem : Mem) (bufsize : Nat) : DnsMsg :=
  (pDecodeQuery { (default : DnsMsg) with qNameBuffer := names } mem bufsize).2

/-- A datagram that passes all checks is looked up. -/
theorem rParse_eq_lookup
    {v : Build} {names : Bytes} {mem : Mem} {bufsize : Nat} {sa : Ip v}
    (hsize : 12 ≤ bufsize ∧ bufsize ≤ 512)
    (hlocal : ipIsLinklocal sa = false)
    (hquery : (pDecodeQuery { (default : DnsMsg) with qNameBuffer := names } mem bufsize).1 =
      .ok ())
    (hlen : (nameAt (decodedMsg names mem bufsize).qNameBuffer
      (decodedMsg names mem bufsize).question.qName).length ≤ 255)
    (hvalid : strValidHostname (nameAt (decodedMsg names mem bufsize).qNameBuffer
      (decodedMsg names mem bufsize).question.qName) = true)
    (htype : (decodedMsg names mem bufsize).question.qType = v.addrRecordType ∨
      (decodedMsg names mem bufsize).question.qType = srvRecordType) :
    rParse names mem bufsize sa =
      (.lookup (decodedMsg names mem bufsize),
        (decodedMsg names mem bufsize).qNameBuffer) := by
  rw [rParse, if_neg (by omega), if_neg (by omega), hlocal]
  dsimp only
  rw [if_neg Bool.false_ne_true, hquery]
  simp only [decodedMsg] at hlen hvalid htype ⊢
  simp only [rVerdict, if_neg (Nat.not_lt.mpr hlen), hvalid, if_pos htype]
  rfl

/-- A datagram that is answered was decoded. -/
theorem rParse_decoded
    {v : Build} {names names' : Bytes} {mem : Mem} {bufsize : Nat} {sa : Ip v} {msg : DnsMsg}
    (h : rParse names mem bufsize sa = (.lookup msg, names') ∨
      rParse names mem bufsize sa = (.failure msg, names')) :
    pDecodeQuery { (default : DnsMsg) with qNameBuffer := names } mem bufsize = (.ok (), msg) ∧
      names' = msg.qNameBuffer := by
  have hverdict : ∀ result msg',
      rVerdict v result msg' = .lookup msg ∨ rVerdict v result msg' = .failure msg →
      result = .ok () ∧ msg' = msg := by
    intro result msg' h
    cases result with
    | error e =>
        rcases h with h | h <;> cases h
    | ok u =>
        simp only [rVerdict] at h
        split_ifs at h <;> rcases h with h | h <;> cases h <;> exact ⟨rfl, rfl⟩
  have hparse : ∀ verdict, rParse names mem bufsize sa = (verdict, names') →
      (verdict = .lookup msg ∨ verdict = .failure msg) →
      pDecodeQuery { (default : DnsMsg) with qNameBuffer := names } mem bufsize = (.ok (), msg) ∧
        names' = msg.qNameBuffer := by
    intro verdict h hanswered
    rw [rParse] at h
    split_ifs at h
    · cases h
      rcases hanswered with h | h <;> cases h
    · cases h
      rcases hanswered with h | h <;> cases h
    · cases h
      rcases hanswered with h | h <;> cases h
    · cases h
      obtain ⟨hresult, hmsg⟩ := hverdict _ _ hanswered
      exact ⟨Prod.ext hresult hmsg, congrArg _ hmsg⟩
  rcases h with h | h
  · exact hparse _ h (.inl rfl)
  · exact hparse _ h (.inr rfl)

/-- A query that is looked up keeps its name at the start of the buffer. -/
theorem rParse_lookup
    {v : Build} {names names' : Bytes} {mem : Mem} {bufsize : Nat} {sa : Ip v} {msg : DnsMsg}
    (h : rParse names mem bufsize sa = (.lookup msg, names')) :
    msg.question.qName = 0 := by
  obtain ⟨hdecode, -⟩ := rParse_decoded (.inl h)
  obtain ⟨n, -, hquestion⟩ := pDecodeQuery_spec hdecode
  rw [hquestion]

/-- The message that `r_success` writes into its buffer, if any.  `list` is the
compact list, of which `nodes_compact_size` is the length. -/
def rSuccess (v : Build) (names : Bytes) (msg : DnsMsg) (list : Bytes) :
    Except AnswerFault (Option Writer) :=
  if list.length = 0 then .ok none
  else do
    let msg ← pReplyMsg v names msg (buffer list []) list.length
    .ok (some (pEncodeResponse names msg .empty))

/-- The message that `r_failure` writes into its buffer. -/
def rFailure (names : Bytes) (msg : DnsMsg) : Writer :=
  pEncodeResponse names (pResetMsg msg) .empty

/-! ## The length of a response -/

/-- A query that `r_parse` looks up. -/
structure AcceptedQuery (v : Build) where
  names : Bytes
  mem : Mem
  bufsize : Nat
  sa : Ip v
  msg : DnsMsg
  names' : Bytes
  accepted : rParse names mem bufsize sa = (.lookup msg, names')

/-- A compact list of one to eight pairs. -/
structure PairList (v : Build) where
  bytes : Bytes
  count : Nat
  length_eq : bytes.length = count * v.ipSizeMetaPair
  count_pos : 1 ≤ count
  count_le : count ≤ 8

/-- The response is written, with existing elements of `answer` only, and
inside the buffer. -/
def ResponseFits {v : Build} (q : AcceptedQuery v) (list : PairList v) : Prop :=
  ∃ w, rSuccess v q.names' q.msg list.bytes = .ok (some w) ∧
    w.out.length ≤ udpBuf ∧ w.extent ≤ udpBuf

/-- The message of `r_success` for a list of pairs. -/
theorem rSuccess_pairList
    {v : Build} (names : Bytes) (msg : DnsMsg) (list : PairList v) :
    rSuccess v names msg list.bytes =
      .ok (some (pEncodeResponse names
        (repliedMsg v names msg (buffer list.bytes []) list.count) .empty)) := by
  have hpair : 0 < v.ipSizeMetaPair := by
    cases v <;> decide
  have hcount : list.bytes.length / v.ipSizeMetaPair = list.count := by
    rw [list.length_eq, Nat.mul_div_cancel _ hpair]
  have hne : list.bytes.length ≠ 0 := by
    rw [list.length_eq]
    exact Nat.mul_ne_zero (Nat.ne_of_gt list.count_pos) (Nat.ne_of_gt hpair)
  have hreply := pReplyMsg_answers v names msg (buffer list.bytes [])
    (hcount.symm ▸ list.count_le)
  rw [rSuccess, if_neg hne, hreply, hcount]
  rfl

/-- What `r_success` writes for a list of pairs. -/
theorem rSuccess_eq
    {v : Build} (names : Bytes) (msg : DnsMsg) (list : PairList v) :
    ∃ w, rSuccess v names msg list.bytes = .ok (some w) ∧
      w.Tight ∧ w.out.length = responseLength v names msg.question list.count :=
  ⟨_, rSuccess_pairList names msg list,
    pEncodeResponse_length v names msg (buffer list.bytes []) list.count⟩

/-- No answer index reaches 16, and the response to an accepted query fits the
buffer of `r_success` exactly when header, question and records, with all their
uncompressed names, add up to at most `UDP_BUF` bytes. -/
theorem rSuccess_fits_iff {v : Build} (q : AcceptedQuery v) (list : PairList v) :
    ResponseFits q list ↔
      responseLength v q.names' q.msg.question list.count ≤ udpBuf := by
  obtain ⟨w, hw, htight, hlen⟩ := rSuccess_eq q.names' q.msg list
  rw [← hlen]
  constructor
  · rintro ⟨w', hw', hout, -⟩
    cases hw.symm.trans hw'
    exact hout
  · intro hout
    exact ⟨w, hw, hout, by rw [htight]; exact hout⟩

/-- The query for the SRV record of a name of 50 characters. -/
def longSrvQuery : Bytes :=
  [0, 1, 0, 0, 0, 1, 0, 0, 0, 0, 0, 0] ++ 50 :: List.replicate 50 'a'.toUInt8 ++
    [0, 0, 33, 0, 1]

theorem longSrvQuery_accepted :
    rParse (v := .ipv4) (List.replicate 256 0) (buffer longSrvQuery []) 68
        ⟨[127, 0, 0, 1], (0, 53), rfl⟩ =
      (.lookup (decodedMsg (List.replicate 256 0) (buffer longSrvQuery []) 68),
        (decodedMsg (List.replicate 256 0) (buffer longSrvQuery []) 68).qNameBuffer) :=
  rParse_eq_lookup (by decide) (by decide) (by decide +kernel)
    (by decide +kernel) (by decide +kernel) (by decide +kernel)

/-- With eight pairs the response to it has 1556 bytes. -/
theorem not_responseFits_longSrvQuery :
    ¬ ∀ (v : Build) (q : AcceptedQuery v) (list : PairList v), ResponseFits q list := by
  intro h
  obtain ⟨w, hw, hlen, -⟩ := h .ipv4 ⟨_, _, _, _, _, _, longSrvQuery_accepted⟩
    ⟨List.replicate 48 1, 8, by decide, by decide, by decide⟩
  obtain ⟨w', hw', -, hlen'⟩ := rSuccess_eq
    (decodedMsg (List.replicate 256 0) (buffer longSrvQuery []) 68).qNameBuffer
    (decodedMsg (List.replicate 256 0) (buffer longSrvQuery []) 68)
    (⟨List.replicate 48 1, 8, by decide, by decide, by decide⟩ : PairList .ipv4)
  cases hw.symm.trans hw'
  have hlong : responseLength .ipv4
      (decodedMsg (List.replicate 256 0) (buffer longSrvQuery []) 68).qNameBuffer
      (decodedMsg (List.replicate 256 0) (buffer longSrvQuery []) 68).question 8 = 1556 := by
    decide +kernel
  rw [hlen', hlong] at hlen
  exact absurd hlen (by decide)

end Torrentkino
