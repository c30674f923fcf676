import Torrentkino.Dns.Client
import Torrentkino.Dns.Query
import Torrentkino.P2p.ResponseFormat

/-!
# The client and the daemon

What the client asks for is what the daemon decodes, and the addresses that the daemon
sends are the addresses that the client finds in the response.

**Results.**
* `pDecodeQuery_query`: the daemon decodes the query of the client.
* `answerLoop_records`: the client reads the addresses of the records in order.
* `client_answer`: a lookup from the query to the addresses.
-/

namespace Torrentkino

open Memory CString DnsWire

theorem pGet16bits_of_holds_wire16 {mem : Mem} {p : Nat} {n : UInt16}
    (h : Holds mem p (wire16 n)) :
    pGet16bits mem p = n.toNat := by
  rw [← UInt16.ofNat_toNat (x := n), ← be16_eq] at h
  rw [pGet16bits_of_holds h]
  exact Nat.mod_eq_of_lt n.toNat_lt

/-! ## The query -/

/-- The daemon accepts the query and finds the host and the type in it. -/
theorem pDecodeQuery_query
    (h : HostName) (queryType pid : Nat) (buf : Mem) (after : Bytes) (msg : DnsMsg) :
    ∃ msg', pDecodeQuery msg (buffer (ngethostbynameQuery buf pid h.text queryType).2 after)
        (ngethostbynameQuery buf pid h.text queryType).2.length = (.ok (), msg') ∧
      nameAt msg'.qNameBuffer msg'.question.qName = h.text ∧
      msg'.question.qType = queryType % 65536 := by
  have hquery := ngethostbynameQuery_eq buf pid h queryType
  generalize (ngethostbynameQuery buf pid h.text queryType).2 = query at hquery
  have hsize : query.length = 12 + ((wireName h.labels).length + 4) := by
    rw [hquery, List.length_append, List.length_append]
    rfl
  have hholds := holds_buffer_self query after
  generalize hmem : buffer query after = mem at hholds
  rw [hquery, holds_append, holds_append, holds_append] at hholds
  obtain ⟨hheader, hname, htype, -⟩ := hholds
  change Holds mem 12 _ at hname
  change Holds mem (12 + _) _ at htype
  have hwire := length_wireName_of_ne_nil h.labels_ne_nil
  have hlen := h.length_le
  have hlabels : ∀ l ∈ h.labels, 1 ≤ l.length ∧ l.length < 256 := by
    intro l hl
    obtain ⟨hpos, hle⟩ := h.label_length l hl
    exact ⟨hpos, by omega⟩
  have hsize : (dotted h.labels).length < query.length - 12 := by omega
  obtain ⟨rest, hdomain⟩ :=
    pDecodeDomain_wireName hlabels hname (by omega) hsize msg.qNameBuffer
  simp only [DnsHeader.bytes, holds_append] at hheader
  obtain ⟨⟨⟨⟨⟨-, -⟩, hquestions⟩, hanswers⟩, hauthority⟩, -⟩ := hheader
  refine ⟨_, pDecodeQuery_eq_ok (pGet16bits_of_holds hquestions) (pGet16bits_of_holds hanswers)
    (pGet16bits_of_holds hauthority) hdomain (by omega), ?_, pGet16bits_of_holds htype⟩
  rw [nameAt, List.drop_zero]
  exact (cString_append_zero _ _).trans (cString_eq_self h.zero_not_mem_text)

/-! ## The response -/

section Response

variable {v : Build} {mem : Mem}

theorem toNat_addrRecordType (v : Build) :
    (UInt16.ofNat v.addrRecordType).toNat = v.addrRecordType := by
  cases v <;> rfl

/-- One record of an address. -/
theorem answerLoop_succ
    (h : HostName) (class' : UInt16) (list : Mem) (i : Nat) {p : Nat}
    (hmem : Holds mem p (addrRecord v h.toDnsName class' list i).wire)
    (hbuf : p + (addrRecord v h.toDnsName class' list i).wire.length ≤ clientBufSize)
    (n result : Nat) (address : Bytes) :
    answerLoop v mem (n + 1) p result address =
      answerLoop v mem n (p + (addrRecord v h.toDnsName class' list i).wire.length) (result + 1)
        (address ++ copy list i v.ipSize) := by
  have hwire : (addrRecord v h.toDnsName class' list i).wire =
      wireName h.labels ++ (wire16 (UInt16.ofNat v.addrRecordType) ++ (wire16 class' ++
        (wire32 300 ++ (wire16 (UInt16.ofNat v.ipSize) ++ copy list i v.ipSize)))) := by
    simp only [Record.wire, addrRecord, wire_addrData, type_addrData, copy_length,
      DnsName.labels_wire]
  have hlen : (addrRecord v h.toDnsName class' list i).wire.length =
      (wireName h.labels).length + 10 + v.ipSize := by
    rw [hwire]
    simp only [List.length_append, wire16, wire32, List.length_cons, List.length_nil, copy_length]
    omega
  rw [hwire] at hmem
  simp only [holds_append] at hmem
  obtain ⟨hname, htype, -, -, hlength, haddr⟩ := hmem
  rw [hlen] at hbuf ⊢
  obtain ⟨name, hread, -⟩ := readName_wireName h hname (by omega)
  have hsize : pGet16bits mem (p + (wireName h.labels).length + 8) = v.ipSize := by
    have := pGet16bits_of_holds_wire16 hlength
    cases v <;> exact this
  have hqType : pGet16bits mem (p + (wireName h.labels).length) = v.addrRecordType := by
    rw [pGet16bits_of_holds_wire16 htype, toNat_addrRecordType]
  have hcopy : copy mem (p + (wireName h.labels).length + 10) v.ipSize = copy list i v.ipSize := by
    have := copy_of_holds haddr
    rwa [copy_length] at this
  rw [answerLoop, hread]
  dsimp only [bind, Except.bind]
  rw [if_neg (by omega), hsize, hqType, if_neg (not_not.mpr rfl), if_neg (not_not.mpr rfl),
    if_neg (by omega), hcopy, Nat.add_assoc p, Nat.add_assoc p]

/-- The records of some pairs. -/
theorem answerLoop_records
    (h : HostName) (class' : UInt16) (list : Mem) (is : List Nat) {p : Nat}
    (hmem : Holds mem p
      ((is.map fun i => addrRecord v h.toDnsName class' list (i * v.ipSizeMetaPair)).flatMap
        Record.wire))
    (hbuf : p + ((is.map fun i =>
      addrRecord v h.toDnsName class' list (i * v.ipSizeMetaPair)).flatMap Record.wire).length ≤
        clientBufSize)
    (result : Nat) (address : Bytes) :
    answerLoop v mem is.length p result address =
      .ok (result + is.length,
        address ++ is.flatMap fun i => copy list (i * v.ipSizeMetaPair) v.ipSize) := by
  induction is generalizing p result address with
  | nil =>
      simp [answerLoop]
  | cons i is ih =>
      rw [List.map_cons, List.flatMap_cons] at hmem hbuf
      rw [holds_append] at hmem
      rw [List.length_append, ← Nat.add_assoc] at hbuf
      rw [List.length_cons, answerLoop_succ h class' list _ hmem.1 (by omega), ih hmem.2 hbuf,
        List.flatMap_cons, List.append_assoc, Nat.add_assoc, Nat.add_comm 1]

end Response

/-- The addresses of the pairs, one behind the other. -/
def PairList.addresses {v : Build} (list : PairList v) : Bytes :=
  (List.range list.count).flatMap fun i =>
    copy (buffer list.bytes []) (i * v.ipSizeMetaPair) v.ipSize

/-- The client makes of the response of `r_success` the addresses of the list. -/
theorem ngethostbynameAnswer_response
    {v : Build} (h : HostName) {names : Bytes} {msg : DnsMsg}
    (hname : nameAt names msg.question.qName = h.text)
    (hqType : msg.question.qType = v.addrRecordType) (list : PairList v) (buf : Mem) :
    ∃ w, rSuccess v names msg list.bytes = .ok (some w) ∧
      ngethostbynameAnswer v buf w.out = .ok (list.count, list.addresses) := by
  let a : Asked v := ⟨names, msg, h.toDnsName, hname, .inl hqType⟩
  have hsrv : msg.question.qType ≠ srvRecordType := by
    rw [hqType]
    exact addrRecordType_ne_srv v
  have hcount := list.count_le
  have hpos := list.count_pos
  obtain ⟨-, hlen⟩ := pEncodeResponse_length v names msg (buffer list.bytes []) list.count
  have hout := a.out_pEncodeResponse_addr list h.toDnsName hsrv
  refine ⟨_, rSuccess_pairList names msg list, ?_⟩
  have hshort : (a.response list h.toDnsName).wire.length ≤ clientBufSize := by
    have hname_le : (nameAt names msg.question.qName).length ≤ 253 := by
      rw [hname]
      exact h.length_le
    have hip : v.ipSize ≤ 16 := by
      cases v <;> decide
    have hmul : list.count * ((nameAt names msg.question.qName).length + 12 + v.ipSize) ≤
        8 * (253 + 12 + 16) :=
      Nat.mul_le_mul hcount (by omega)
    rw [← hout, hlen, responseLength, if_neg hsrv, clientBufSize]
    omega
  change ngethostbynameAnswer v buf (pEncodeResponse a.names
    (repliedMsg v a.names a.msg (buffer list.bytes []) list.count) .empty).out = _
  rw [hout, ngethostbynameAnswer, List.take_of_length_le hshort]
  have hmem := holds_write_self buf 0 (a.response list h.toDnsName).wire
  generalize write buf 0 (a.response list h.toDnsName).wire = mem at hmem
  have hresponse : (a.response list h.toDnsName).wire =
      wire16 (UInt16.ofNat msg.id) ++ (wire16 0x8000 ++ (wire16 1 ++
        (wire16 (UInt16.ofNat list.count) ++ (wire16 0 ++ (wire16 0 ++
          (wireName h.labels ++ (wire16 (UInt16.ofNat msg.question.qType) ++
            (wire16 (UInt16.ofNat msg.question.qClass) ++
              (a.addrRecords list h.toDnsName).flatMap Record.wire)))))))) := by
    simp [Asked.response, Asked.addrRecords, Asked.question, Question.wire, Message.wire, hsrv, a]
  rw [hresponse] at hmem hshort
  simp only [holds_append] at hmem
  obtain ⟨-, -, hquestions, hanswers, hauthority, hadditional, hlabels, -, -, hrecords⟩ := hmem
  have hq : pGet16bits mem 4 = 1 := pGet16bits_of_holds_wire16 hquestions
  have han : pGet16bits mem 6 = list.count := by
    have hlt : list.count < 65536 := by omega
    have hvalue : (UInt16.ofNat list.count).toNat = list.count := by
      simpa using Nat.mod_eq_of_lt hlt
    exact (pGet16bits_of_holds_wire16 hanswers).trans hvalue
  have hns : pGet16bits mem 8 = 0 := pGet16bits_of_holds_wire16 hauthority
  have har : pGet16bits mem 10 = 0 := pGet16bits_of_holds_wire16 hadditional
  have hqname : qnameLength mem + 1 = (wireName h.labels).length := by
    rw [qnameLength_eq h hlabels, wireName_eq, List.length_append, List.length_singleton]
  rw [hq, han, hns, har, hqname, if_neg (not_not.mpr rfl), if_neg (by omega),
    if_neg (not_not.mpr rfl), if_neg (not_not.mpr rfl), dnsAnswersMax,
    Nat.min_eq_left hcount]
  have hloop := answerLoop_records (v := v) h (UInt16.ofNat msg.question.qClass)
    (buffer list.bytes []) (List.range list.count) (p := 12 + (wireName h.labels).length + 4)
    hrecords (by
      simp only [List.length_append, wire16, List.length_cons, List.length_nil] at hshort
      change 12 + (wireName h.labels).length + 4 +
        ((a.addrRecords list h.toDnsName).flatMap Record.wire).length ≤ _
      omega) 0 []
  rw [List.length_range, Nat.zero_add, List.nil_append] at hloop
  exact hloop

/-- Client and daemon write names in the same way; the daemon decodes the host and the
type that the client asks for; and the client finds the addresses of the list in the
response of the daemon. -/
theorem client_answer
    {v : Build} (h : HostName) (list : PairList v) (queryType : UInt16) (pid : Nat) (buf : Mem)
    (names after : Bytes) :
    (∀ b, (pEncodeDomain b h.text).out = b.out ++ changetoDnsNameFormat h.text) ∧
    (∃ msg, pDecodeQuery { (default : DnsMsg) with qNameBuffer := names }
        (buffer (ngethostbynameQuery buf pid h.text queryType.toNat).2 after)
        (ngethostbynameQuery buf pid h.text queryType.toNat).2.length = (.ok (), msg) ∧
      nameAt msg.qNameBuffer msg.question.qName = h.text ∧
      msg.question.qType = queryType.toNat) ∧
    ∃ msg w, pDecodeQuery { (default : DnsMsg) with qNameBuffer := names }
        (buffer (ngethostbynameQuery buf pid h.text v.addrRecordType).2 after)
        (ngethostbynameQuery buf pid h.text v.addrRecordType).2.length = (.ok (), msg) ∧
      rSuccess v msg.qNameBuffer msg list.bytes = .ok (some w) ∧
      ngethostbynameAnswer v (ngethostbynameQuery buf pid h.text v.addrRecordType).1 w.out =
        .ok (list.count, list.addresses) := by
  refine ⟨fun b => ?_, ?_, ?_⟩
  · rw [changetoDnsNameFormat_eq, h.encodeLabels_text]
    exact out_pEncodeDomain b h.toDnsName
  · obtain ⟨msg, hdecode, hname, hqType⟩ :=
      pDecodeQuery_query h queryType.toNat pid buf after { (default : DnsMsg) with
        qNameBuffer := names }
    exact ⟨msg, hdecode, hname, hqType.trans (Nat.mod_eq_of_lt queryType.toNat_lt)⟩
  · obtain ⟨msg, hdecode, hname, hqType⟩ :=
      pDecodeQuery_query h v.addrRecordType pid buf after { (default : DnsMsg) with
        qNameBuffer := names }
    have htype : msg.question.qType = v.addrRecordType := by
      rw [hqType]
      cases v <;> rfl
    obtain ⟨w, hw, hanswer⟩ := ngethostbynameAnswer_response h hname htype list
      (ngethostbynameQuery buf pid h.text v.addrRecordType).1
    exact ⟨msg, w, hdecode, hw, hanswer⟩

/-- The host `peer-1.p2p`. -/
def peerName : HostName where
  labels := [cstr "peer-1", cstr "p2p"]
  labels_ne_nil := by decide
  label_length := by decide
  label_chars := by decide
  length_le := by decide
  hostname := by decide

/-- Two addresses with their ports. -/
def twoPairs : PairList .ipv4 :=
  ⟨[10, 0, 0, 7, 31, 144, 10, 0, 0, 9, 26, 225], 2, rfl, by decide, by decide⟩

/-- The client that asks for the host finds the two addresses, on a stack with other bytes
in it. -/
theorem client_answer_peerName :
    ∃ msg w, pDecodeQuery { (default : DnsMsg) with qNameBuffer := List.replicate 256 7 }
        (buffer (ngethostbynameQuery (fun _ => 9) 77 (cstr "peer-1.p2p") 1).2 [5])
        (ngethostbynameQuery (fun _ => 9) 77 (cstr "peer-1.p2p") 1).2.length = (.ok (), msg) ∧
      rSuccess .ipv4 msg.qNameBuffer msg twoPairs.bytes = .ok (some w) ∧
      ngethostbynameAnswer .ipv4 (ngethostbynameQuery (fun _ => 9) 77 (cstr "peer-1.p2p") 1).1
        w.out = .ok (2, [10, 0, 0, 7, 10, 0, 0, 9]) := by
  have haddresses : twoPairs.addresses = [10, 0, 0, 7, 10, 0, 0, 9] := by
    decide
  rw [← haddresses]
  exact (client_answer peerName twoPairs 1 77 (fun _ => 9) (List.replicate 256 7) [5]).2.2

end Torrentkino
