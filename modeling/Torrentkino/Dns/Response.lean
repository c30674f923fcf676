import Torrentkino.Dns.Dns

/-!
# The length of a DNS response

No name is compressed: the name asked for is written once in the question and
once in each address record (or SRV record), and the target of an SRV record
is written twice for each pair.  `responseLength` adds this up.

**Results.**
* `pReplyMsg_answers`: for at most eight pairs every written element of
  `answer` exists, and these are its contents.
* `pEncodeResponse_length`: the response to `n` pairs has `responseLength` bytes,
  and no byte behind them was written.
-/

namespace Torrentkino

open Memory CString

/-! ## Written bytes -/

namespace Writer

/-- Nothing is written ahead of the pointer. -/
def Tight (b : Writer) : Prop :=
  b.extent = b.out.length

theorem tight_empty : empty.Tight := rfl

@[simp] theorem length_out_empty : empty.out.length = 0 := rfl

@[simp] theorem length_out_put (b : Writer) (w : Bytes) :
    (b.put w).out.length = b.out.length + w.length := by
  simp [put, store]

@[simp] theorem extent_put (b : Writer) (w : Bytes) :
    (b.put w).extent = max b.extent (b.out.length + w.length) := rfl

end Writer

@[simp] theorem length_be16 (value : Nat) : (be16 value).length = 2 := rfl

@[simp] theorem length_be32 (value : Nat) : (be32 value).length = 4 := rfl

@[simp] theorem length_out_pPut16bits (b : Writer) (value : Nat) :
    (pPut16bits b value).out.length = b.out.length + 2 := by
  simp [pPut16bits]

@[simp] theorem extent_pPut16bits (b : Writer) (value : Nat) :
    (pPut16bits b value).extent = max b.extent (b.out.length + 2) := by
  simp [pPut16bits]

@[simp] theorem length_out_pPut32bits (b : Writer) (value : Nat) :
    (pPut32bits b value).out.length = b.out.length + 4 := by
  simp [pPut32bits, Writer.store]

@[simp] theorem extent_pPut32bits (b : Writer) (value : Nat) :
    (pPut32bits b value).extent = max b.extent (b.out.length + 8) := by
  simp [pPut32bits, Writer.store]

/-- One length byte for each label and a zero byte: two bytes more than the
dotted name, whatever the name. -/
theorem length_encodeLabels (label domain : Bytes) :
    (encodeLabels label domain).length = label.length + domain.length + 2 := by
  induction domain generalizing label with
  | nil =>
      simp [encodeLabels]
  | cons c domain ih =>
      by_cases hc : c = '.'.toUInt8
      · simp [encodeLabels, hc, ih]
        omega
      · simp [encodeLabels, hc, ih]
        omega

@[simp] theorem length_out_pEncodeDomain (b : Writer) (domain : Bytes) :
    (pEncodeDomain b domain).out.length = b.out.length + domain.length + 2 := by
  simp [pEncodeDomain, length_encodeLabels, Nat.add_assoc]

@[simp] theorem extent_pEncodeDomain (b : Writer) (domain : Bytes) :
    (pEncodeDomain b domain).extent =
      max b.extent (b.out.length + domain.length + 2) := by
  simp [pEncodeDomain, length_encodeLabels, Nat.add_assoc]

@[simp] theorem length_out_pEncodeHeader (msg : DnsMsg) (b : Writer) :
    (pEncodeHeader msg b).out.length = b.out.length + 12 := by
  simp [pEncodeHeader]

theorem tight_pEncodeHeader
    (msg : DnsMsg) {b : Writer} (hb : b.Tight) :
    (pEncodeHeader msg b).Tight := by
  simp only [Writer.Tight] at hb ⊢
  simp [pEncodeHeader, hb]

/-! ## Records -/

/-- The bytes a record takes. -/
def rrLength (names : Bytes) (rr : DnsRr) : Nat :=
  (nameAt names rr.name).length + 12 +
    if rr.type = srvRecordType then
      8 + (nameAt names rr.rdData.target).length
    else
      rr.rdData.addr.length

/-- The data of a record reach at least as far as `p_put32bits` has written. -/
def CoversTtl (rr : DnsRr) : Prop :=
  rr.type = srvRecordType ∨ 2 ≤ rr.rdData.addr.length

theorem pEncodeRr_length (names : Bytes) (b : Writer) (rr : DnsRr) :
    (pEncodeRr names b rr).out.length = b.out.length + rrLength names rr := by
  by_cases hsrv : rr.type = srvRecordType
  · simp [pEncodeRr, rrLength, hsrv]
    omega
  · simp [pEncodeRr, rrLength, hsrv]
    omega

theorem pEncodeRr_tight
    (names : Bytes) {b : Writer} {rr : DnsRr}
    (hb : b.Tight) (hrr : CoversTtl rr) :
    (pEncodeRr names b rr).Tight := by
  simp only [Writer.Tight] at hb ⊢
  rcases hrr with hsrv | haddr
  · simp [pEncodeRr, hsrv, hb]
    omega
  · by_cases hsrv : rr.type = srvRecordType
    · simp [pEncodeRr, hsrv, hb]
      omega
    · simp [pEncodeRr, hsrv, hb]
      omega

/-- A sequence of records of equal length. -/
theorem foldl_pEncodeRr
    (names : Bytes) (answer : Nat → DnsRr) {size : Nat} (is : List Nat) {b : Writer}
    (hb : b.Tight)
    (hrr : ∀ i ∈ is, rrLength names (answer i) = size ∧ CoversTtl (answer i)) :
    let b' := is.foldl (fun b i => pEncodeRr names b (answer i)) b
    b'.Tight ∧ b'.out.length = b.out.length + is.length * size := by
  induction is generalizing b with
  | nil =>
      simp [hb]
  | cons i is ih =>
      obtain ⟨hsize, hcover⟩ := hrr i (by simp)
      have hhead := pEncodeRr_tight names hb hcover
      have hlen := pEncodeRr_length names b (answer i)
      rw [hsize] at hlen
      obtain ⟨htight, htail⟩ := ih hhead fun j hj => hrr j (by simp [hj])
      refine ⟨htight, ?_⟩
      simp only [List.foldl_cons, List.length_cons]
      rw [htail, hlen]
      ring

/-! ## The reply -/

/-- The loops of `p_reply_msg` fill consecutive elements, as long as these
exist. -/
theorem pPutAnswers_of_le
    (v : Build) (put : Nat → DnsRr) {n i : Nat} (p : Nat) (answer : Nat → DnsRr)
    (h : i + n ≤ answerSize) :
    pPutAnswers v put n i p answer =
      .ok fun j =>
        if i ≤ j ∧ j < i + n then put (p + (j - i) * v.ipSizeMetaPair)
        else answer j := by
  induction n generalizing i p answer with
  | zero =>
      rw [pPutAnswers]
      congr 1
      funext j
      rw [if_neg (by omega)]
  | succ n ih =>
      rw [pPutAnswers, if_pos (by omega), ih _ _ (by omega)]
      congr 1
      funext j
      rcases Nat.lt_trichotomy j i with hlt | rfl | hgt
      · rw [if_neg (by omega), if_neg (by omega), Function.update_of_ne (by omega)]
      · rw [if_neg (by omega), if_pos (by omega), Function.update_self]
        simp
      · rw [Function.update_of_ne (by omega)]
        by_cases hj : j < i + (n + 1)
        · rw [if_pos (by omega), if_pos (by omega)]
          have hsub : j - i = (j - (i + 1)) + 1 := by omega
          rw [hsub]
          congr 1
          ring
        · rw [if_neg (by omega), if_neg (by omega)]

/-- The message that `p_reply_msg` builds from `n` pairs. -/
def repliedMsg (v : Build) (names : Bytes) (msg : DnsMsg) (list : Mem) (n : Nat) :
    DnsMsg :=
  let qu := msg.question
  let domain := pGetDomainFromSrvRecord names qu.qName
  if qu.qType = srvRecordType then
    { pPrepareMsg msg n with
      arCount := n
      answer := fun j =>
        if j < n then pPutSrv v names qu list (j * v.ipSizeMetaPair) domain
        else if j < n + n then pPutAddr v qu list ((j - n) * v.ipSizeMetaPair) domain
        else msg.answer j }
  else
    { pPrepareMsg msg n with
      answer := fun j =>
        if j < n then pPutAddr v qu list (j * v.ipSizeMetaPair) qu.qName
        else msg.answer j }

/-- For at most eight pairs no element of `answer` that does not exist is
written. -/
theorem pReplyMsg_answers
    (v : Build) (names : Bytes) (msg : DnsMsg) (list : Mem) {size : Nat}
    (h : size / v.ipSizeMetaPair ≤ 8) :
    pReplyMsg v names msg list size =
      .ok (repliedMsg v names msg list (size / v.ipSizeMetaPair)) := by
  generalize hn : size / v.ipSizeMetaPair = n at h
  rw [pReplyMsg, hn, repliedMsg]
  by_cases hsrv : msg.question.qType = srvRecordType
  · simp only [hsrv, if_true, pPrepareMsg]
    rw [pPutAnswers_of_le v _ 0 _ (by simp [answerSize]; omega)]
    dsimp only [bind, Except.bind]
    rw [pPutAnswers_of_le v _ 0 _ (by simp [answerSize]; omega)]
    dsimp only
    congr 2
    funext j
    rcases Nat.lt_or_ge j n with hj | hj
    · rw [if_neg (by omega), if_pos (by omega), if_pos hj]
      simp
    · by_cases hj' : j < n + n
      · rw [if_pos (by omega), if_neg (by omega), if_pos hj']
        simp
      · rw [if_neg (by omega), if_neg (by omega), if_neg (by omega), if_neg hj']
  · simp only [hsrv, if_false, pPrepareMsg]
    rw [pPutAnswers_of_le v _ 0 _ (by simp [answerSize]; omega)]
    dsimp only [bind, Except.bind]
    congr 2
    funext j
    by_cases hj : j < n
    · rw [if_pos (by omega), if_pos hj]
      simp
    · rw [if_neg (by omega), if_neg hj]

section Replied

variable (v : Build) (names : Bytes) (msg : DnsMsg) (list : Mem) (n : Nat)

@[simp] theorem question_repliedMsg :
    (repliedMsg v names msg list n).question = msg.question := by
  by_cases hsrv : msg.question.qType = srvRecordType <;>
    simp [repliedMsg, hsrv, pPrepareMsg]

@[simp] theorem anCount_repliedMsg :
    (repliedMsg v names msg list n).anCount = n := by
  by_cases hsrv : msg.question.qType = srvRecordType <;>
    simp [repliedMsg, hsrv, pPrepareMsg]

theorem arCount_repliedMsg :
    (repliedMsg v names msg list n).arCount =
      if msg.question.qType = srvRecordType then n else 0 := by
  by_cases hsrv : msg.question.qType = srvRecordType <;>
    simp [repliedMsg, hsrv, pPrepareMsg]

variable {v names msg list n}

/-- The SRV records come first. -/
theorem answer_repliedMsg_srv
    (hsrv : msg.question.qType = srvRecordType) {i : Nat} (hi : i < n) :
    (repliedMsg v names msg list n).answer i =
      pPutSrv v names msg.question list (i * v.ipSizeMetaPair)
        (pGetDomainFromSrvRecord names msg.question.qName) := by
  simp [repliedMsg, hsrv, hi]

/-- The addresses of the targets follow. -/
theorem answer_repliedMsg_additional
    (hsrv : msg.question.qType = srvRecordType) {i : Nat} (hi : i < n) :
    (repliedMsg v names msg list n).answer (n + i) =
      pPutAddr v msg.question list (i * v.ipSizeMetaPair)
        (pGetDomainFromSrvRecord names msg.question.qName) := by
  simp [repliedMsg, hsrv, hi]

/-- Otherwise there are address records only. -/
theorem answer_repliedMsg_addr
    (hsrv : msg.question.qType ≠ srvRecordType) {i : Nat} (hi : i < n) :
    (repliedMsg v names msg list n).answer i =
      pPutAddr v msg.question list (i * v.ipSizeMetaPair) msg.question.qName := by
  simp [repliedMsg, hsrv, hi]

end Replied

/-- The length of the response to `n` pairs. -/
def responseLength (v : Build) (names : Bytes) (qu : DnsQ) (n : Nat) : Nat :=
  let l := (nameAt names qu.qName).length
  let t := (nameAt names (pGetDomainFromSrvRecord names qu.qName)).length
  18 + l + n *
    if qu.qType = srvRecordType then l + 2 * t + 32 + v.ipSize
    else l + 12 + v.ipSize

theorem rrLength_pPutSrv
    (v : Build) (names : Bytes) (qu : DnsQ) (list : Mem) (p : Nat) (name : NamePtr) :
    rrLength names (pPutSrv v names qu list p name) =
      (nameAt names qu.qName).length + (nameAt names name).length + 20 := by
  simp [rrLength, pPutSrv]
  omega

theorem addrRecordType_ne_srv (v : Build) : v.addrRecordType ≠ srvRecordType := by
  cases v <;> decide

theorem rrLength_pPutAddr
    (v : Build) (names : Bytes) (qu : DnsQ) (list : Mem) (p : Nat) (name : NamePtr) :
    rrLength names (pPutAddr v qu list p name) =
      (nameAt names name).length + 12 + v.ipSize := by
  simp [rrLength, pPutAddr, addrRecordType_ne_srv]

theorem coversTtl_pPutAddr
    (v : Build) (qu : DnsQ) (list : Mem) (p : Nat) (name : NamePtr) :
    CoversTtl (pPutAddr v qu list p name) := by
  right
  cases v <;> simp [pPutAddr, Build.ipSize]

/-- Header and question of a response. -/
def encodedQuestion (names : Bytes) (msg : DnsMsg) : Writer :=
  let b := pEncodeHeader msg .empty
  let b := pEncodeDomain b (nameAt names msg.question.qName)
  let b := pPut16bits b msg.question.qType
  pPut16bits b msg.question.qClass

theorem encodedQuestion_length (names : Bytes) (msg : DnsMsg) :
    (encodedQuestion names msg).Tight ∧
      (encodedQuestion names msg).out.length =
        18 + (nameAt names msg.question.qName).length := by
  have hheader := tight_pEncodeHeader msg Writer.tight_empty
  simp only [Writer.Tight] at hheader ⊢
  simp [encodedQuestion, hheader]
  omega

/-- Header, question and the answers, if any. -/
theorem pEncodeResponse_eq (names : Bytes) (msg : DnsMsg) :
    pEncodeResponse names msg .empty =
      if msg.anCount = 0 then encodedQuestion names msg
      else
        (List.range (msg.anCount + msg.arCount)).foldl
          (fun b i => pEncodeRr names b (msg.answer i)) (encodedQuestion names msg) :=
  rfl

/-- The response to `n` pairs has the announced length, and nothing was written
behind its end. -/
theorem pEncodeResponse_length
    (v : Build) (names : Bytes) (msg : DnsMsg) (list : Mem) (n : Nat) :
    let b := pEncodeResponse names (repliedMsg v names msg list n) .empty
    b.Tight ∧ b.out.length = responseLength v names msg.question n := by
  obtain ⟨htight, hlen⟩ := encodedQuestion_length names (repliedMsg v names msg list n)
  rw [question_repliedMsg] at hlen
  rw [pEncodeResponse_eq, anCount_repliedMsg, arCount_repliedMsg]
  rcases Nat.eq_zero_or_pos n with rfl | hpos
  · simpa [responseLength, htight] using hlen
  rw [if_neg (by omega)]
  by_cases hsrv : msg.question.qType = srvRecordType
  · -- the SRV records, then the address records of the additional section
    rw [if_pos hsrv, List.range_add, List.foldl_append]
    obtain ⟨htight₁, hlen₁⟩ := foldl_pEncodeRr names
      (repliedMsg v names msg list n).answer (List.range n) htight (by
        intro i hi
        rw [answer_repliedMsg_srv hsrv (List.mem_range.mp hi)]
        exact ⟨rrLength_pPutSrv _ _ _ _ _ _, .inl rfl⟩)
    obtain ⟨htight₂, hlen₂⟩ := foldl_pEncodeRr names
      (repliedMsg v names msg list n).answer ((List.range n).map (n + ·)) htight₁ (by
        intro i hi
        obtain ⟨j, hj, rfl⟩ := List.mem_map.mp hi
        rw [answer_repliedMsg_additional hsrv (List.mem_range.mp hj)]
        exact ⟨rrLength_pPutAddr _ _ _ _ _ _, coversTtl_pPutAddr _ _ _ _ _⟩)
    refine ⟨htight₂, ?_⟩
    rw [hlen₂, hlen₁, hlen, responseLength, if_pos hsrv]
    simp only [List.length_map, List.length_range]
    ring
  · rw [if_neg hsrv, Nat.add_zero]
    obtain ⟨htight₁, hlen₁⟩ := foldl_pEncodeRr names
      (repliedMsg v names msg list n).answer (List.range n) htight (by
        intro i hi
        rw [answer_repliedMsg_addr hsrv (List.mem_range.mp hi)]
        exact ⟨rrLength_pPutAddr _ _ _ _ _ _, coversTtl_pPutAddr _ _ _ _ _⟩)
    refine ⟨htight₁, ?_⟩
    rw [hlen₁, hlen, responseLength, if_neg hsrv]
    simp only [List.length_range]

end Torrentkino
