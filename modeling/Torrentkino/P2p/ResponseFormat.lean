import Torrentkino.Dns.Name
import Torrentkino.Dns.SameName
import Torrentkino.P2p.Resolver

/-!
# The format of a response

The length of the data of a record is computed by `p_put_srv` and `p_put_addr`, the
number of records by `p_prepare_msg`, and the bytes are written by `p_encode_response`.
The response is read with a parser of the wire format.

**Results.**
* `out_pEncodeResponse_addr`, `out_pEncodeResponse_srv`: the written bytes are the wire
  form of a message.
* `response_format`: the response to an accepted question is parsed as one record for each
  pair, and for a question for services with their addresses as additional records.
-/

namespace Torrentkino

open Memory CString DnsWire

/-! ## Records -/

theorem be16_eq (n : Nat) : be16 n = wire16 (UInt16.ofNat n) := by
  rw [be16, wire16]
  congr 1
  · rw [← UInt8.toNat_inj]
    simp [Nat.shiftRight_eq_div_pow]
    omega
  · simp

theorem be32_eq (n : Nat) : be32 n = wire32 (UInt32.ofNat n) := by
  rw [be32, wire32, be16_eq, be16_eq]
  congr 1
  · congr 1
    rw [← UInt16.toNat_inj]
    simp [Nat.shiftRight_eq_div_pow]
    omega
  · simp

theorem out_pEncodeDomain (b : Writer) (n : DnsName) :
    (pEncodeDomain b n.text).out = b.out ++ wireName n.labels := by
  rw [pEncodeDomain, n.encodeLabels_text, Writer.put, Writer.store, List.take_length]

theorem out_pPut16bits (b : Writer) (n : Nat) :
    (pPut16bits b n).out = b.out ++ wire16 (UInt16.ofNat n) := by
  rw [pPut16bits, Writer.put, Writer.store, List.take_length, be16_eq]

theorem out_pPut32bits (b : Writer) (n : Nat) :
    (pPut32bits b n).out = b.out ++ wire32 (UInt32.ofNat n) := by
  rw [pPut32bits, Writer.store, List.take_left' (length_be32 n), be32_eq]

section Records

variable {v : Build} {names : Bytes} {list : Mem}

/-- The data of an address record. -/
def addrData (v : Build) (addr : Bytes) (h : addr.length = v.ipSize) : RData :=
  match v, h with
  | .ipv4, h => .a addr h
  | .ipv6, h => .aaaa addr h

@[simp] theorem wire_addrData (addr : Bytes) (h : addr.length = v.ipSize) :
    (addrData v addr h).wire = addr := by
  cases v <;> rfl

@[simp] theorem type_addrData (addr : Bytes) (h : addr.length = v.ipSize) :
    (addrData v addr h).type = UInt16.ofNat v.addrRecordType := by
  cases v <;> rfl

/-- The record of the address of the pair at offset `p`. -/
def addrRecord (v : Build) (name : DnsName) (class' : UInt16) (list : Mem) (p : Nat) :
    Record where
  name := name.wire
  class' := class'
  ttl := 300
  data := addrData v (copy list p v.ipSize) (length_copy_ipSize v list p)

/-- The record of the service at the port of the pair at offset `p`. -/
def srvRecord (v : Build) (name target : DnsName) (list : Mem) (p : Nat) : Record where
  name := name.wire
  class' := 1
  ttl := 300
  data := .srv 0 0 (UInt16.ofNat (pGet16bits list (p + v.ipSize))) target.wire

theorem out_pEncodeRr_addr
    {qu : DnsQ} {ptr : NamePtr} {name : DnsName} (hname : nameAt names ptr = name.text)
    (b : Writer) (p : Nat) :
    (pEncodeRr names b (pPutAddr v qu list p ptr)).out =
      b.out ++ (addrRecord v name (UInt16.ofNat qu.qClass) list p).wire := by
  rw [pEncodeRr, pPutAddr]
  dsimp only
  rw [if_neg (addrRecordType_ne_srv v), Writer.put, Writer.store, List.take_length,
    out_pPut16bits, out_pPut32bits, out_pPut16bits, out_pPut16bits, hname, out_pEncodeDomain]
  simp only [addrRecord, Record.wire, wire_addrData, type_addrData, copy_length,
    DnsName.labels_wire, List.append_assoc]
  rfl

theorem out_pEncodeRr_srv
    {qu : DnsQ} {ptr : NamePtr} {name target : DnsName}
    (hname : nameAt names qu.qName = name.text) (htarget : nameAt names ptr = target.text)
    (b : Writer) (p : Nat) :
    (pEncodeRr names b (pPutSrv v names qu list p ptr)).out =
      b.out ++ (srvRecord v name target list p).wire := by
  have hlen : 6 + target.text.length + 2 =
      (RData.srv 0 0 (UInt16.ofNat (pGet16bits list (p + v.ipSize))) target.wire).wire.length := by
    have hwire : (wireName target.labels).length = target.text.length + 2 :=
      length_wireName_of_ne_nil target.labels_ne_nil
    simp only [RData.wire, wire16, List.length_append, List.length_cons, List.length_nil,
      DnsName.labels_wire, hwire]
    omega
  rw [pEncodeRr, pPutSrv]
  dsimp only
  rw [if_pos rfl, htarget, out_pEncodeDomain, out_pPut16bits, out_pPut16bits, out_pPut16bits,
    out_pPut16bits, out_pPut32bits, out_pPut16bits, out_pPut16bits, hname, out_pEncodeDomain,
    hlen]
  simp only [srvRecord, Record.wire, RData.wire, DnsName.labels_wire, List.append_assoc]
  rfl

/-- A sequence of records. -/
theorem out_foldl_pEncodeRr
    (answer : Nat → DnsRr) (record : Nat → Record) (is : List Nat) (b : Writer)
    (h : ∀ i ∈ is, ∀ b, (pEncodeRr names b (answer i)).out = b.out ++ (record i).wire) :
    (is.foldl (fun b i => pEncodeRr names b (answer i)) b).out =
      b.out ++ (is.map record).flatMap Record.wire := by
  induction is generalizing b with
  | nil =>
      simp
  | cons i is ih =>
      rw [List.foldl_cons, ih _ fun j hj => h j (List.mem_cons_of_mem i hj),
        h i List.mem_cons_self, List.map_cons, List.flatMap_cons, List.append_assoc]

end Records

/-! ## Targets -/

/-- The text behind the first `._tcp.`, or else the first `._udp.`, or else all of it. -/
def serviceTarget (text : Bytes) : Bytes :=
  match strstr text (cstr "._tcp.") with
  | some i => text.drop (i + 6)
  | none =>
      match strstr text (cstr "._udp.") with
      | some i => text.drop (i + 6)
      | none => text

/-- The text behind what comes first, `._tcp.` or `._udp.`. -/
def firstServiceTarget (text : Bytes) : Bytes :=
  match strstr text (cstr "._tcp."), strstr text (cstr "._udp.") with
  | some i, some j => text.drop (min i j + 6)
  | some i, none => text.drop (i + 6)
  | none, some j => text.drop (j + 6)
  | none, none => text

theorem nameAt_add
    {names : Bytes} {ptr : NamePtr} {i : Nat} (hi : i ≤ (nameAt names ptr).length) :
    nameAt names (ptr + i) = (nameAt names ptr).drop i := by
  rw [nameAt, ← List.drop_drop]
  exact cString_drop hi

theorem nameAt_pGetDomainFromSrvRecord (names : Bytes) (ptr : NamePtr) :
    nameAt names (pGetDomainFromSrvRecord names ptr) = serviceTarget (nameAt names ptr) := by
  rw [pGetDomainFromSrvRecord, serviceTarget]
  cases htcp : strstr (nameAt names ptr) (cstr "._tcp.") with
  | some i =>
      exact nameAt_add (strstr_le htcp)
  | none =>
      cases hudp : strstr (nameAt names ptr) (cstr "._udp.") with
      | some i =>
          exact nameAt_add (strstr_le hudp)
      | none =>
          rfl

/-- A needle of six bytes with a dot at its end. -/
theorem exists_text_eq_drop
    (n : DnsName) (needle : Bytes) {i : Nat}
    (h : strstr n.text (needle ++ ['.'.toUInt8]) = some i) (hneedle : needle.length = 5) :
    ∃ m : DnsName, m.text = n.text.drop (i + 6) := by
  obtain ⟨back, hback⟩ := prefix_drop_of_strstr h
  have hdrop : n.text.drop (i + 6) = back := by
    rw [← List.drop_drop, ← hback]
    exact List.drop_left' (by simp [hneedle])
  have hsplit : n.text = (n.text.take i ++ needle) ++ '.'.toUInt8 :: back := by
    conv_lhs => rw [← List.take_append_drop i n.text, ← hback]
    simp
  rw [hdrop]
  exact n.exists_text_eq_of_append hsplit

/-- The target is a name. -/
theorem exists_text_eq_serviceTarget (n : DnsName) :
    ∃ m : DnsName, m.text = serviceTarget n.text := by
  rw [serviceTarget]
  split
  · rename_i i hi
    exact exists_text_eq_drop n (cstr "._tcp") hi rfl
  split
  · rename_i i hi
    exact exists_text_eq_drop n (cstr "._udp") hi rfl
  · exact ⟨n, rfl⟩

/-! ## Responses -/

/-- A decoded question for addresses of the build or for services. -/
structure Asked (v : Build) where
  names : Bytes
  msg : DnsMsg
  name : DnsName
  nameAt_qName : nameAt names msg.question.qName = name.text
  qType : msg.question.qType = v.addrRecordType ∨ msg.question.qType = srvRecordType

namespace Asked

variable {v : Build} (a : Asked v) (list : PairList v) (target : DnsName)

/-- The question in the wire format. -/
def question : Question where
  name := a.name.wire
  type := UInt16.ofNat a.msg.question.qType
  class' := UInt16.ofNat a.msg.question.qClass

/-- A record for each pair. -/
def addrRecords (name : DnsName) : List Record :=
  (List.range list.count).map fun i =>
    addrRecord v name (UInt16.ofNat a.msg.question.qClass) (buffer list.bytes [])
      (i * v.ipSizeMetaPair)

/-- A service record for each pair. -/
def srvRecords : List Record :=
  (List.range list.count).map fun i =>
    srvRecord v a.name target (buffer list.bytes []) (i * v.ipSizeMetaPair)

/-- The response: the records of the addresses, or those of the services and the
addresses of their target. -/
def response : Message where
  id := UInt16.ofNat a.msg.id
  flags := 0x8000
  questions := [a.question]
  answers :=
    if a.msg.question.qType = srvRecordType then a.srvRecords list target
    else a.addrRecords list a.name
  authority := []
  additional :=
    if a.msg.question.qType = srvRecordType then a.addrRecords list target else []

theorem out_encodedQuestion (mem : Mem) (n : Nat) :
    (encodedQuestion a.names (repliedMsg v a.names a.msg mem n)).out =
      wire16 (UInt16.ofNat a.msg.id) ++ (wire16 0x8000 ++ (wire16 1 ++
        (wire16 (UInt16.ofNat n) ++ (wire16 0 ++
          (wire16 (UInt16.ofNat (if a.msg.question.qType = srvRecordType then n else 0)) ++
            a.question.wire))))) := by
  rw [repliedMsg]
  split <;>
    simp only [encodedQuestion, pEncodeHeader, pPrepareMsg, a.nameAt_qName, out_pPut16bits,
      out_pEncodeDomain, question, Question.wire, DnsName.labels_wire, Writer.empty,
      List.nil_append, List.append_assoc] <;>
    rfl

/-- A question for addresses is answered with these. -/
theorem out_pEncodeResponse_addr
    (hqType : a.msg.question.qType ≠ srvRecordType) :
    (pEncodeResponse a.names
        (repliedMsg v a.names a.msg (buffer list.bytes []) list.count) .empty).out =
      (a.response list target).wire := by
  let reply := repliedMsg v a.names a.msg (buffer list.bytes []) list.count
  have hrecords := out_foldl_pEncodeRr reply.answer
    (fun i => addrRecord v a.name (UInt16.ofNat a.msg.question.qClass)
      (buffer list.bytes []) (i * v.ipSizeMetaPair))
    (List.range list.count) (encodedQuestion a.names reply)
    fun i hi b => by
      rw [answer_repliedMsg_addr hqType (List.mem_range.mp hi)]
      exact out_pEncodeRr_addr a.nameAt_qName b _
  rw [pEncodeResponse_eq, anCount_repliedMsg, arCount_repliedMsg, if_neg hqType, Nat.add_zero,
    if_neg (Nat.ne_of_gt list.count_pos), hrecords, a.out_encodedQuestion]
  simp [response, addrRecords, Message.wire, hqType]

/-- A question for services is answered with these, and the addresses follow. -/
theorem out_pEncodeResponse_srv
    (hqType : a.msg.question.qType = srvRecordType)
    (htarget : target.text = serviceTarget a.name.text) :
    (pEncodeResponse a.names
        (repliedMsg v a.names a.msg (buffer list.bytes []) list.count) .empty).out =
      (a.response list target).wire := by
  have hptr : nameAt a.names (pGetDomainFromSrvRecord a.names a.msg.question.qName) =
      target.text := by
    rw [nameAt_pGetDomainFromSrvRecord, a.nameAt_qName, htarget]
  let reply := repliedMsg v a.names a.msg (buffer list.bytes []) list.count
  have hservices := out_foldl_pEncodeRr reply.answer
    (fun i => srvRecord v a.name target (buffer list.bytes []) (i * v.ipSizeMetaPair))
    (List.range list.count) (encodedQuestion a.names reply)
    fun i hi b => by
      rw [answer_repliedMsg_srv hqType (List.mem_range.mp hi)]
      exact out_pEncodeRr_srv a.nameAt_qName hptr b _
  have haddresses := fun b => out_foldl_pEncodeRr
    (fun i => reply.answer (list.count + i))
    (fun i => addrRecord v target (UInt16.ofNat a.msg.question.qClass)
      (buffer list.bytes []) (i * v.ipSizeMetaPair))
    (List.range list.count) b
    fun i hi b => by
      rw [answer_repliedMsg_additional hqType (List.mem_range.mp hi)]
      exact out_pEncodeRr_addr hptr b _
  rw [pEncodeResponse_eq, anCount_repliedMsg, arCount_repliedMsg, if_pos hqType,
    if_neg (Nat.ne_of_gt list.count_pos), List.range_add, List.foldl_append, List.foldl_map,
    haddresses, hservices, a.out_encodedQuestion]
  simp [response, addrRecords, srvRecords, Message.wire, hqType]

theorem qr_response : (a.response list target).qr = true := by
  change decide ((0x8000 : UInt16) &&& 0x8000 ≠ 0) = true
  decide

theorem rcode_response : (a.response list target).rcode = 0 := by
  change (0x8000 : UInt16) &&& 0x000F = 0
  decide

theorem parse_response :
    parse (a.response list target).wire = some (a.response list target) := by
  have hcount := list.count_le
  refine parse_wire _ (by simp [response]) ?_ (by simp [response]) ?_
  · simp only [response]
    split <;> simp [srvRecords, addrRecords] <;> omega
  · simp only [response]
    split <;> simp [addrRecords]
    omega

end Asked

/-- The bytes that `r_success` sends are a message without an error, with the id and the
question of the query, and with the records for the name and for a target. -/
def FormattedWith
    {v : Build} (targetOf : Bytes → Bytes) (a : Asked v) (list : PairList v) : Prop :=
  ∃ w target m, rSuccess v a.names a.msg list.bytes = .ok (some w) ∧
    target.text = targetOf a.name.text ∧ parse w.out = some m ∧
    m = a.response list target ∧ m.qr = true ∧ m.rcode = 0

/-- The target can be read from the records of the services. -/
theorem FormattedWith.targetOf_eq
    {v : Build} {targetOf : Bytes → Bytes} {a : Asked v} {list : PairList v}
    (hqType : a.msg.question.qType = srvRecordType) (h : FormattedWith targetOf a list) :
    targetOf a.name.text = serviceTarget a.name.text := by
  obtain ⟨w, target, m, hw, htarget, hparse, hm, -⟩ := h
  obtain ⟨target', htarget'⟩ := exists_text_eq_serviceTarget a.name
  have hout := a.out_pEncodeResponse_srv list target' hqType htarget'
  have hwritten := Option.some.inj
    (Except.ok.inj (hw.symm.trans (rSuccess_pairList a.names a.msg list)))
  rw [hwritten, hout, a.parse_response, hm] at hparse
  have hanswers := congrArg Message.answers (Option.some.inj hparse)
  simp only [Asked.response, if_pos hqType, Asked.srvRecords, List.map_inj_left,
    List.mem_range] at hanswers
  have hrecord := congrArg Record.data (hanswers 0 list.count_pos)
  simp only [srvRecord, RData.srv.injEq, true_and] at hrecord
  have hlabels : target'.labels = target.labels := congrArg DnsWire.Name.labels hrecord
  rw [← htarget, ← htarget', DnsName.text, DnsName.text, hlabels]

/-- The response to every question for a name is in the wire format, the target of
services being the text behind the first `._tcp.`, or else the first `._udp.`, or else
the name. -/
theorem response_format {v : Build} (a : Asked v) (list : PairList v) :
    FormattedWith serviceTarget a list := by
  obtain ⟨target, htarget⟩ := exists_text_eq_serviceTarget a.name
  refine ⟨_, target, _, rSuccess_pairList a.names a.msg list, htarget, ?_, rfl,
    a.qr_response list target, a.rcode_response list target⟩
  by_cases hqType : a.msg.question.qType = srvRecordType
  · rw [a.out_pEncodeResponse_srv list target hqType htarget]
    exact a.parse_response list target
  · rw [a.out_pEncodeResponse_addr list target hqType]
    exact a.parse_response list target

/-- The question for `a._udp.b._tcp.c`. -/
def twoServices : Asked .ipv4 where
  names := cstr "a._udp.b._tcp.c" ++ [0]
  msg := { (default : DnsMsg) with id := 1, question := ⟨0, srvRecordType, 1⟩ }
  name :=
    { labels := [cstr "a", cstr "_udp", cstr "b", cstr "_tcp", cstr "c"]
      labels_ne_nil := by decide
      label_length := by decide +kernel
      label_chars := by decide +kernel
      length_le := by decide +kernel }
  nameAt_qName := by decide +kernel
  qType := by decide

/-- What is behind `._tcp.` is the target, although `._udp.` comes first. -/
theorem response_format_fails :
    ¬ ∀ (v : Build) (a : Asked v) (list : PairList v), FormattedWith firstServiceTarget a list := by
  intro h
  have htarget := FormattedWith.targetOf_eq rfl
    (h .ipv4 twoServices ⟨[10, 0, 0, 1, 0, 80], 1, rfl, by decide, by decide⟩)
  exact absurd htarget (by decide +kernel)

end Torrentkino
