import Torrentkino.Dns.Response

/-!
# What a response takes from the name buffer

A response reads the name buffer only through the name that was asked for: the
other names are suffixes of it.  So two buffers with the same name give the
same response, whatever else is in them.

**Results.**
* `pEncodeResponse_congr`: the response depends on the name only.
* `pEncodeResponse_question`: it starts with the id of the message, and its
  question section has the name.
-/

namespace Torrentkino

open Memory CString

/-! ## Suffixes of the name -/

theorem cString_drop
    {b : Bytes} {p : Nat} (hp : p ≤ (cString b).length) :
    cString (b.drop p) = (cString b).drop p := by
  induction b generalizing p with
  | nil =>
      simp
  | cons c b ih =>
      cases p with
      | zero =>
          rfl
      | succ p =>
          rcases eq_or_ne c 0 with rfl | hc
          · simp at hp
          · rw [cString_cons_of_ne b hc] at hp ⊢
            rw [List.drop_succ_cons, List.drop_succ_cons]
            exact ih (Nat.le_of_succ_le_succ hp)

/-- A pointer into the name points to a suffix of it. -/
theorem nameAt_eq_drop
    {names : Bytes} {p : NamePtr} (hp : p ≤ (nameAt names 0).length) :
    nameAt names p = (nameAt names 0).drop p :=
  cString_drop hp

section Congr

variable {names names' : Bytes} (hname : nameAt names 0 = nameAt names' 0)

include hname

theorem nameAt_congr {p : NamePtr} (hp : p ≤ (nameAt names 0).length) :
    nameAt names p = nameAt names' p := by
  have hp' : p ≤ (nameAt names' 0).length := hname ▸ hp
  rw [nameAt_eq_drop hp, nameAt_eq_drop hp', hname]

theorem pGetDomainFromSrvRecord_congr :
    pGetDomainFromSrvRecord names 0 = pGetDomainFromSrvRecord names' 0 := by
  rw [pGetDomainFromSrvRecord, pGetDomainFromSrvRecord, hname]

omit hname in
theorem pGetDomainFromSrvRecord_le (names : Bytes) :
    pGetDomainFromSrvRecord names 0 ≤ (nameAt names 0).length := by
  rw [pGetDomainFromSrvRecord]
  split
  · rename_i i hi
    simpa [cstr] using strstr_le hi
  split
  · rename_i i hi
    simpa [cstr] using strstr_le hi
  · exact Nat.zero_le _

theorem repliedMsg_congr
    {v : Build} {msg : DnsMsg} (hqu : msg.question.qName = 0) (list : Mem) (n : Nat) :
    repliedMsg v names msg list n = repliedMsg v names' msg list n := by
  have hsrv : ∀ p, pPutSrv v names msg.question list p (pGetDomainFromSrvRecord names 0) =
      pPutSrv v names' msg.question list p (pGetDomainFromSrvRecord names 0) := by
    intro p
    rw [pPutSrv, pPutSrv, nameAt_congr hname (pGetDomainFromSrvRecord_le names)]
  simp only [repliedMsg, hqu, hsrv, ← pGetDomainFromSrvRecord_congr hname]

theorem pEncodeRr_congr
    (b : Writer) {rr : DnsRr}
    (hrr : rr.name ≤ (nameAt names 0).length)
    (htarget : rr.rdData.target ≤ (nameAt names 0).length) :
    pEncodeRr names b rr = pEncodeRr names' b rr := by
  rw [pEncodeRr, pEncodeRr, nameAt_congr hname hrr, nameAt_congr hname htarget]

/-- All names of the records are pointers into the name. -/
theorem foldl_pEncodeRr_congr
    {answer : Nat → DnsRr} (indices : List Nat) (b : Writer)
    (hanswer : ∀ i ∈ indices, (answer i).name ≤ (nameAt names 0).length ∧
      (answer i).rdData.target ≤ (nameAt names 0).length) :
    indices.foldl (fun b i => pEncodeRr names b (answer i)) b =
      indices.foldl (fun b i => pEncodeRr names' b (answer i)) b := by
  induction indices generalizing b with
  | nil =>
      rfl
  | cons i indices ih =>
      obtain ⟨hrr, htarget⟩ := hanswer i List.mem_cons_self
      rw [List.foldl_cons, List.foldl_cons, pEncodeRr_congr hname b hrr htarget]
      exact ih _ fun j hj => hanswer j (List.mem_cons_of_mem i hj)

/-- The response depends on the name only. -/
theorem pEncodeResponse_congr
    {v : Build} {msg : DnsMsg} (hqu : msg.question.qName = 0) (list : Mem) (n : Nat) :
    pEncodeResponse names (repliedMsg v names msg list n) .empty =
      pEncodeResponse names' (repliedMsg v names' msg list n) .empty := by
  rw [← repliedMsg_congr hname hqu]
  have hquestion : encodedQuestion names (repliedMsg v names msg list n) =
      encodedQuestion names' (repliedMsg v names msg list n) := by
    simp only [encodedQuestion, question_repliedMsg, hqu, hname]
  rw [pEncodeResponse_eq, pEncodeResponse_eq, hquestion]
  split
  · rfl
  refine foldl_pEncodeRr_congr hname _ _ fun i hi => ?_
  rw [anCount_repliedMsg, arCount_repliedMsg] at hi
  have hdomain := pGetDomainFromSrvRecord_le names
  rcases eq_or_ne msg.question.qType srvRecordType with hsrv | hsrv
  · rw [if_pos hsrv] at hi
    rcases Nat.lt_or_ge i n with hlt | hge
    · rw [answer_repliedMsg_srv hsrv hlt, pPutSrv, hqu]
      exact ⟨Nat.zero_le _, hdomain⟩
    · have hi' : i - n < n := by
        have := List.mem_range.mp hi
        omega
      have hadd : (repliedMsg v names msg list n).answer (n + (i - n)) = _ :=
        answer_repliedMsg_additional hsrv hi'
      rw [Nat.add_sub_cancel' hge] at hadd
      rw [hadd, pPutAddr, hqu]
      exact ⟨hdomain, Nat.zero_le _⟩
  · rw [if_neg hsrv, Nat.add_zero] at hi
    rw [answer_repliedMsg_addr hsrv (List.mem_range.mp hi), pPutAddr, hqu]
    exact ⟨Nat.zero_le _, Nat.zero_le _⟩

end Congr

/-! ## The question section -/

theorem prefix_out_pEncodeRr (names : Bytes) (b : Writer) (rr : DnsRr) :
    b.out <+: (pEncodeRr names b rr).out := by
  rw [pEncodeRr]
  split <;>
    simp only [pEncodeDomain, pPut16bits, pPut32bits, Writer.put, Writer.store,
      List.append_assoc] <;>
    exact List.prefix_append _ _

theorem prefix_out_foldl
    (names : Bytes) (answer : Nat → DnsRr) (indices : List Nat) (b : Writer) :
    b.out <+: (indices.foldl (fun b i => pEncodeRr names b (answer i)) b).out := by
  induction indices generalizing b with
  | nil =>
      exact List.prefix_rfl
  | cons i indices ih =>
      exact (prefix_out_pEncodeRr names b (answer i)).trans (ih _)

/-- The records, if any, follow the question. -/
theorem prefix_out_pEncodeResponse (names : Bytes) (msg : DnsMsg) :
    (encodedQuestion names msg).out <+: (pEncodeResponse names msg .empty).out := by
  rw [pEncodeResponse_eq]
  split
  · exact List.prefix_rfl
  · exact prefix_out_foldl _ _ _ _

/-- Id, header, and the question with the name. -/
theorem pEncodeResponse_question
    (v : Build) (names : Bytes) (msg : DnsMsg) (list : Mem) (n : Nat) :
    ∃ fields rest : Bytes, fields.length = 10 ∧
      (pEncodeResponse names (repliedMsg v names msg list n) .empty).out =
        be16 msg.id ++ fields ++ encodeLabels [] (nameAt names msg.question.qName) ++
          be16 msg.question.qType ++ be16 msg.question.qClass ++ rest := by
  have hid : (repliedMsg v names msg list n).id = msg.id := by
    rw [repliedMsg]
    split <;> rfl
  obtain ⟨rest, hrest⟩ := prefix_out_pEncodeResponse names (repliedMsg v names msg list n)
  let M := repliedMsg v names msg list n
  refine ⟨be16 (((M.qr <<< 15) &&& qrMask) ||| ((M.rcode <<< 0) &&& rcodeMask)) ++
    be16 M.qdCount ++ be16 M.anCount ++ be16 M.nsCount ++ be16 M.arCount, rest, rfl, ?_⟩
  rw [← hrest]
  simp only [encodedQuestion, pEncodeHeader, pEncodeDomain, pPut16bits, Writer.put,
    Writer.store, List.take_length, Writer.empty, List.nil_append, question_repliedMsg, hid,
    List.append_assoc, M]

end Torrentkino
