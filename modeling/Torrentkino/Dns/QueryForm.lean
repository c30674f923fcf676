import Torrentkino.Dns.Query

/-!
# Which queries are accepted

`p_decode_domain` compares the length of the text with the number of bytes that are
left, which is too weak: the wire form has a byte more for every label.  What is
missing is made up for by `p_decode_query`, which asks for four more bytes behind the
name.

**Results.**
* `length_pDecodeDomain`: the name never leaves its buffer.
* `query_accepted`: the datagrams that are accepted, and what is made of them.
-/

namespace Torrentkino

open Memory CString DnsWire

/-! ## The buffer of the name -/

/-- A store behind the end of the buffer makes it longer, so that no store has left a
buffer that still has its length. -/
theorem length_splice_iff {b w : Bytes} {i : Nat} (hi : i ≤ b.length) :
    (splice b i w).length = b.length ↔ i + w.length ≤ b.length := by
  rw [splice, List.length_append, List.length_append, List.length_take, List.length_drop]
  omega

theorem length_splice {b w : Bytes} {i : Nat} (h : i + w.length ≤ b.length) :
    (splice b i w).length = b.length :=
  (length_splice_iff (Nat.le_of_add_right_le h)).mpr h

theorem length_pDecodeDomainLoop
    {mem : Mem} {size fuel p i : Nat} {domain : Bytes} (hi : i < qNameSize)
    (hlen : domain.length = qNameSize) :
    (pDecodeDomainLoop mem size fuel p i domain).2.length = qNameSize := by
  induction fuel generalizing p i domain with
  | zero =>
      exact hlen
  | succ fuel ih =>
      rw [pDecodeDomainLoop]
      split
      · exact (length_splice (by rw [hlen]; exact hi)).trans hlen
      · -- In front of the label there is a dot, at most in the last place.
        have hdot : (if i ≠ 0 then (i + 1, splice domain i ['.'.toUInt8]) else (i, domain)).2.length
            = qNameSize := by
          split
          · exact (length_splice (by rw [hlen]; exact hi)).trans hlen
          · exact hlen
        dsimp only
        generalize (if i ≠ 0 then (i + 1, splice domain i ['.'.toUInt8]) else (i, domain)) = dot
          at hdot ⊢
        split
        · exact hdot
        · rename_i hfits
          rw [not_or, Nat.not_le, Nat.not_le] at hfits
          refine ih hfits.1 ((length_splice ?_).trans hdot)
          rw [copy_length, hdot]
          exact Nat.le_of_lt hfits.1

/-- `p_decode_domain` writes nothing behind the last byte of the buffer. -/
theorem length_pDecodeDomain
    {domain : Bytes} (hlen : domain.length = qNameSize) (mem : Mem) (p size : Nat) :
    (pDecodeDomain domain mem p size).2.length = qNameSize := by
  change (pDecodeDomainLoop mem size 257 p 0 domain).2.length = qNameSize
  exact length_pDecodeDomainLoop (by decide) hlen

theorem length_pDecodeQuery
    {msg : DnsMsg} (hlen : msg.qNameBuffer.length = qNameSize) (mem : Mem) (size : Nat) :
    (pDecodeQuery msg mem size).2.qNameBuffer.length = qNameSize := by
  rcases pDecodeQuery_cases msg mem size with ⟨-, hname⟩ | ⟨-, hname, -⟩
  · rw [hname, hlen]
  · rw [hname, length_pDecodeDomain hlen]

/-! ## Accepted datagrams -/

/-- A query with one question, and with no answer and no authority record.  Its name
may be followed by anything behind type and class. -/
structure QueryForm where
  /-- The identifier and the flags. -/
  front : Bytes
  /-- The number of additional records. -/
  additional : Bytes
  labels : List Bytes
  qType : Nat
  qClass : Nat
  rest : Bytes
  front_length : front.length = 4
  additional_length : additional.length = 2
  label_length : ∀ l ∈ labels, 1 ≤ l.length ∧ l.length ≤ 255
  text_length : (dotted labels).length ≤ 255
  qType_lt : qType < 65536
  qClass_lt : qClass < 65536

namespace QueryForm

def bytes (q : QueryForm) : Bytes :=
  q.front ++ (be16 1 ++ (be16 0 ++ (be16 0 ++ (q.additional ++
    (wireName q.labels ++ (be16 q.qType ++ (be16 q.qClass ++ q.rest)))))))

end QueryForm

theorem copy_two (mem : Mem) (p : Nat) : copy mem p 2 = be16 (pGet16bits mem p) :=
  (be16_pGet16bits mem p).symm

theorem pGet16bits_lt (mem : Mem) (p : Nat) : pGet16bits mem p < 65536 := by
  have hhi := (mem p).toNat_lt
  have hlo := (mem (p + 1)).toNat_lt
  rw [pGet16bits, Nat.shiftLeft_eq]
  omega

/-- What is known of an accepted query. -/
theorem pDecodeQuery_ok
    {msg : DnsMsg} {mem : Mem} {size : Nat} (h : (pDecodeQuery msg mem size).1 = .ok ()) :
    pGet16bits mem 4 = 1 ∧ pGet16bits mem 6 = 0 ∧ pGet16bits mem 8 = 0 ∧
      ∃ n domain, pDecodeDomain msg.qNameBuffer mem 12 (size - 12) = (some n, domain) ∧
        n + 4 ≤ size - 12 := by
  have hcases := pDecodeQuery_cases msg mem size
  rw [h] at hcases
  rcases hcases with ⟨⟨e, he⟩, -⟩ | ⟨⟨hqd, han, hns⟩, -, ⟨e, he⟩ | ⟨n, hn, hsize, -⟩⟩
  · cases he
  · cases he
  · exact ⟨hqd, han, hns, n, _, Prod.ext hn rfl, hsize⟩

section Accepted

variable {datagram : Bytes} {msg : DnsMsg}

/-- An accepted datagram is a query. -/
theorem exists_queryForm
    {after : Bytes} (hmin : 12 ≤ datagram.length)
    (h : (pDecodeQuery msg (buffer datagram after) datagram.length).1 = .ok ()) :
    ∃ q : QueryForm, datagram = q.bytes := by
  generalize hmem : buffer datagram after = mem at h
  obtain ⟨hquestions, hanswers, hauthority, n, domain, hdomain, hsize⟩ := pDecodeQuery_ok h
  obtain ⟨ls, hls, hwire, rfl, htext, -⟩ := pDecodeDomain_spec hdomain
  obtain ⟨k, hk⟩ : ∃ k, datagram.length =
      4 + (2 + (2 + (2 + (2 + ((wireName ls).length + (2 + (2 + k))))))) :=
    ⟨datagram.length - 12 - (wireName ls).length - 4, by omega⟩
  have hall : copy mem 0 datagram.length = datagram := by
    rw [← hmem]
    exact copy_of_holds (holds_buffer_self datagram after)
  have hbytes : datagram = copy mem 0 4 ++ (be16 1 ++ (be16 0 ++ (be16 0 ++ (copy mem 10 2 ++
      (wireName ls ++ (be16 (pGet16bits mem (12 + (wireName ls).length)) ++
        (be16 (pGet16bits mem (12 + (wireName ls).length + 2)) ++
          copy mem (12 + (wireName ls).length + 4) k))))))) := by
    rw [← hall, hk, copy_add, copy_add, copy_add, copy_add, copy_add, copy_add, copy_add, copy_add]
    simp only [Nat.zero_add, Nat.reduceAdd, copy_of_holds hwire, copy_two, hquestions, hanswers,
      hauthority, Nat.add_assoc]
  refine ⟨{
    front := copy mem 0 4
    additional := copy mem 10 2
    labels := ls
    qType := pGet16bits mem (12 + (wireName ls).length)
    qClass := pGet16bits mem (12 + (wireName ls).length + 2)
    rest := copy mem (12 + (wireName ls).length + 4) k
    front_length := copy_length 0 4
    additional_length := copy_length 10 2
    label_length := fun l hl => ⟨(hls l hl).1, Nat.le_of_lt_succ (hls l hl).2⟩
    text_length := Nat.le_of_lt_succ htext
    qType_lt := pGet16bits_lt mem _
    qClass_lt := pGet16bits_lt mem _ }, hbytes⟩

/-- A query is accepted, and its name, type and class are found. -/
theorem pDecodeQuery_queryForm (q : QueryForm) (after : Bytes) (msg : DnsMsg) :
    ∃ msg' rest, pDecodeQuery msg (buffer q.bytes after) q.bytes.length = (.ok (), msg') ∧
      msg'.qNameBuffer = dotted q.labels ++ 0 :: rest ∧
      msg'.question = ⟨0, q.qType, q.qClass⟩ := by
  have hself := holds_buffer_self q.bytes after
  generalize buffer q.bytes after = mem at hself ⊢
  have hfront := q.front_length
  have hadditional := q.additional_length
  have hlen : q.bytes.length = 16 + (wireName q.labels).length + q.rest.length := by
    simp only [QueryForm.bytes, List.length_append, be16, List.length_cons, List.length_nil,
      hfront, hadditional]
    omega
  simp only [QueryForm.bytes, holds_append, hfront, hadditional, show ∀ n, (be16 n).length = 2
    from fun _ => rfl, Nat.zero_add, Nat.reduceAdd] at hself
  obtain ⟨-, hquestions, hanswers, hauthority, -, hname, htype, hclass, -⟩ := hself
  have htext := q.text_length
  have hwire : (dotted q.labels).length < (wireName q.labels).length := by
    rcases eq_or_ne q.labels [] with hnil | hne
    · rw [hnil]
      decide
    · rw [length_wireName_of_ne_nil hne]
      omega
  obtain ⟨rest, hdomain⟩ := pDecodeDomain_wireName
    (fun l hl => ⟨(q.label_length l hl).1, Nat.lt_succ_of_le (q.label_length l hl).2⟩)
    hname (by omega) (by omega : (dotted q.labels).length < q.bytes.length - 12) msg.qNameBuffer
  refine ⟨_, rest, pDecodeQuery_eq_ok (pGet16bits_of_holds hquestions)
    (pGet16bits_of_holds hanswers) (pGet16bits_of_holds hauthority) hdomain (by omega), rfl, ?_⟩
  dsimp only
  rw [pGet16bits_of_holds htype, pGet16bits_of_holds hclass, Nat.mod_eq_of_lt q.qType_lt,
    Nat.mod_eq_of_lt q.qClass_lt]

/-- Of a datagram with something behind it, `p_decode_query` accepts exactly the
queries.  It finds their name, type and class, and keeps to the buffer of the name. -/
structure AcceptsQueries (msg : DnsMsg) (datagram after : Bytes) : Prop where
  accepted_iff : (pDecodeQuery msg (buffer datagram after) datagram.length).1 = .ok () ↔
    ∃ q : QueryForm, datagram = q.bytes
  decoded : ∀ q : QueryForm, datagram = q.bytes →
    ∃ msg' rest, pDecodeQuery msg (buffer datagram after) datagram.length = (.ok (), msg') ∧
      msg'.qNameBuffer = dotted q.labels ++ 0 :: rest ∧
      msg'.question = ⟨0, q.qType, q.qClass⟩
  inside : (pDecodeQuery msg (buffer datagram after) datagram.length).2.qNameBuffer.length =
    qNameSize

theorem query_accepted
    (hmin : 12 ≤ datagram.length) (hbuffer : msg.qNameBuffer.length = qNameSize)
    (after : Bytes) :
    AcceptsQueries msg datagram after where
  accepted_iff := by
    refine ⟨exists_queryForm hmin, ?_⟩
    rintro ⟨q, rfl⟩
    obtain ⟨msg', rest, hdecode, -⟩ := pDecodeQuery_queryForm q after msg
    rw [hdecode]
  decoded := by
    rintro q rfl
    exact pDecodeQuery_queryForm q after msg
  inside := length_pDecodeQuery hbuffer _ _

end Accepted

/-- The question for the addresses of `a.p2p`. -/
def askForA : Bytes :=
  [0, 1, 1, 0, 0, 1, 0, 0, 0, 0, 0, 0, 1, 97, 3, 112, 50, 112, 0, 0, 1, 0, 1]

theorem query_accepted_askForA :
    AcceptsQueries { (default : DnsMsg) with qNameBuffer := List.replicate qNameSize 0 } askForA
      [7, 7, 7] :=
  query_accepted (by decide) List.length_replicate _

end Torrentkino
