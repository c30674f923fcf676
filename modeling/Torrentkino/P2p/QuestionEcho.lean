import Torrentkino.Dns.Query
import Torrentkino.Dns.SameName
import Torrentkino.Lib.Simulation
import Torrentkino.P2p.Resolver

/-!
# The question of a response

A client drops a response whose question is not its own.  The daemon writes the
question from the decoded name, in which the ends of the labels are dots and the
end of the name is a zero byte.

**Result.**
* `question_echoed_iff`: the question comes back unchanged exactly when the name has a
  label and none with a dot or a zero byte.
-/

namespace Torrentkino

open Memory CString DnsWire

/-! ## What was decoded -/

/-- The labels of the name at an offset. -/
def labelsAt (mem : Mem) : Nat → Nat → List Bytes
  | 0, _ => []
  | fuel + 1, p =>
      if mem p = 0 then []
      else
        copy mem (p + 1) (mem p).toNat :: labelsAt mem fuel (p + 1 + (mem p).toNat)

/-- The labels of the name in a query. -/
def queryLabels (mem : Mem) : List Bytes :=
  labelsAt mem 257 12

/-- The question section of a query: name, type and class. -/
def queryQuestion (mem : Mem) : Bytes :=
  copy mem 12 ((wireName (queryLabels mem)).length + 4)

theorem labelsAt_wireName
    {mem : Mem} {ls : List Bytes} (hls : ∀ l ∈ ls, 1 ≤ l.length ∧ l.length < 256) {fuel p : Nat}
    (hfuel : ls.length < fuel) (hmem : Holds mem p (wireName ls)) :
    labelsAt mem fuel p = ls := by
  induction ls generalizing fuel p with
  | nil =>
      obtain ⟨fuel, rfl⟩ := Nat.exists_eq_add_of_lt hfuel
      exact if_pos hmem.1
  | cons l ls ih =>
      cases fuel with
      | zero =>
          cases hfuel
      | succ fuel =>
          obtain ⟨hl, hls⟩ := List.forall_mem_cons.mp hls
          rw [wireName, holds_append, List.length_cons, Nat.add_comm l.length 1,
            ← Nat.add_assoc] at hmem
          obtain ⟨⟨hbyte, hlabel⟩, hrest⟩ := hmem
          have hlen : (mem p).toNat = l.length := by
            rw [hbyte, toNat_ofNat_length hl.2]
          have hne : mem p ≠ 0 := by
            intro hzero
            rw [hzero] at hlen
            change 0 = l.length at hlen
            omega
          rw [labelsAt, if_neg hne, hlen, copy_of_holds hlabel,
            ih hls (Nat.lt_of_succ_lt_succ hfuel) hrest]

/-! ## Queries and their responses -/

/-- A query that `r_parse` accepts, and the message that it is answered with. -/
structure AnsweredQuery (v : Build) where
  names : Bytes
  mem : Mem
  bufsize : Nat
  sa : Ip v
  msg : DnsMsg
  names' : Bytes
  reply : DnsMsg
  answered :
    (rParse names mem bufsize sa = (.lookup msg, names') ∧
        ∃ list : Bytes, list ≠ [] ∧
          pReplyMsg v names' msg (buffer list []) list.length = .ok reply) ∨
      (rParse names mem bufsize sa = (.failure msg, names') ∧ reply = pResetMsg msg)

/-- The question section of a response: what `p_encode_response` writes behind the
header and in front of the records (`prefix_out_pEncodeResponse`). -/
def responseQuestion (names : Bytes) (msg : DnsMsg) : Bytes :=
  (encodedQuestion names msg).out.drop 12

/-- The question section of the response is that of the query. -/
def EchoesQuestion {v : Build} (q : AnsweredQuery v) : Prop :=
  responseQuestion q.names' q.reply = queryQuestion q.mem

theorem responseQuestion_eq (names : Bytes) (msg : DnsMsg) :
    responseQuestion names msg =
      encodeLabels [] (nameAt names msg.question.qName) ++
        (be16 msg.question.qType ++ be16 msg.question.qClass) := by
  have hout : (encodedQuestion names msg).out = (pEncodeHeader msg .empty).out ++
      (encodeLabels [] (nameAt names msg.question.qName) ++
        (be16 msg.question.qType ++ be16 msg.question.qClass)) := by
    simp only [encodedQuestion, pEncodeDomain, pPut16bits, Writer.put, Writer.store,
      List.take_length, List.append_assoc]
  rw [responseQuestion, hout]
  exact List.drop_left' (length_out_pEncodeHeader msg .empty)

theorem question_pReplyMsg
    {v : Build} {names : Bytes} {msg msg' : DnsMsg} {list : Mem} {size : Nat}
    (h : pReplyMsg v names msg list size = .ok msg') :
    msg'.question = msg.question := by
  simp only [pReplyMsg] at h
  split at h
  · obtain ⟨answer₁, -, h⟩ := Simulation.bind_eq_ok h
    obtain ⟨answer₂, -, h⟩ := Simulation.bind_eq_ok h
    cases h
    rfl
  · obtain ⟨answer, -, h⟩ := Simulation.bind_eq_ok h
    cases h
    rfl

namespace AnsweredQuery

variable {v : Build} (q : AnsweredQuery v)

theorem decoded :
    pDecodeQuery { (default : DnsMsg) with qNameBuffer := q.names } q.mem q.bufsize =
        (.ok (), q.msg) ∧
      q.names' = q.msg.qNameBuffer ∧ q.reply.question = q.msg.question := by
  rcases q.answered with ⟨h, list, -, hreply⟩ | ⟨h, hreply⟩
  · obtain ⟨hdecode, hnames⟩ := rParse_decoded (.inl h)
    exact ⟨hdecode, hnames, question_pReplyMsg hreply⟩
  · obtain ⟨hdecode, hnames⟩ := rParse_decoded (.inr h)
    exact ⟨hdecode, hnames, by rw [hreply]; rfl⟩

/-- The question of the query, and that of the response: the labels, and what is read
as labels from their text. -/
theorem questions_eq :
    ∃ ls, (∀ l ∈ ls, 1 ≤ l.length ∧ l.length < 256) ∧ (dotted ls).length < 256 ∧
      queryLabels q.mem = ls ∧
      ∃ fields, queryQuestion q.mem = wireName ls ++ fields ∧
        responseQuestion q.names' q.reply =
          encodeLabels [] (cString (dotted ls)) ++ fields := by
  obtain ⟨hdecode, hnames, hquestion⟩ := q.decoded
  obtain ⟨n, hdomain, hmsg⟩ := pDecodeQuery_spec hdecode
  obtain ⟨ls, hls, hwire, hn, hlen, rest, hbuffer⟩ := pDecodeDomain_spec hdomain
  have hfuel := length_lt_of_dotted hlen
  have hlabels : queryLabels q.mem = ls := labelsAt_wireName hls hfuel hwire
  have hname : nameAt q.names' 0 = cString (dotted ls) := by
    rw [hnames, hbuffer, nameAt, List.drop_zero]
    exact cString_append_zero _ _
  refine ⟨ls, hls, hlen, hlabels,
    be16 (pGet16bits q.mem (12 + n)) ++ be16 (pGet16bits q.mem (12 + n + 2)), ?_, ?_⟩
  · rw [queryQuestion, hlabels, be16_pGet16bits, be16_pGet16bits, copy_add, copy_of_holds hwire,
      hn]
    rfl
  · rw [responseQuestion_eq, hquestion, hmsg, hname]

end AnsweredQuery

/-- The response has the question of the query, byte for byte, in exactly the case that
the name is not the root and none of its labels has a dot or a zero byte. -/
theorem question_echoed_iff {v : Build} (q : AnsweredQuery v) :
    EchoesQuestion q ↔
      queryLabels q.mem ≠ [] ∧
        ∀ l ∈ queryLabels q.mem, '.'.toUInt8 ∉ l ∧ (0 : UInt8) ∉ l := by
  obtain ⟨ls, hls, hlen, hlabels, fields, hquery, hresponse⟩ := q.questions_eq
  rw [hlabels, EchoesQuestion, hquery, hresponse, List.append_left_inj]
  exact encodeLabels_cString_iff hls hlen

/-- The query for the name servers of the root. -/
def rootQuery : Bytes :=
  [0, 1, 0, 0, 0, 1, 0, 0, 0, 0, 0, 0] ++ [0, 0, 2, 0, 1]

/-- The message that it is decoded to. -/
def rootMsg : DnsMsg :=
  decodedMsg (List.replicate 256 0) (buffer rootQuery []) 17

theorem rootQuery_answered :
    rParse (v := .ipv4) (List.replicate 256 0) (buffer rootQuery []) 17
        ⟨[127, 0, 0, 1], (0, 53), rfl⟩ = (.failure rootMsg, rootMsg.qNameBuffer) := by
  have hquery : (pDecodeQuery { (default : DnsMsg) with qNameBuffer := List.replicate 256 0 }
      (buffer rootQuery []) 17).1 = .ok () := by
    decide +kernel
  rw [rParse, if_neg (by decide), if_neg (by decide), if_neg (by decide)]
  dsimp only
  rw [hquery]
  simp only [rVerdict]
  rw [if_neg (by decide +kernel), if_neg (by decide +kernel), if_neg (by decide +kernel)]
  rfl

/-- The empty name is written as an empty label and the end of the name. -/
theorem question_echoed_fails :
    ¬ ∀ (v : Build) (q : AnsweredQuery v), EchoesQuestion q := by
  intro h
  have hecho : responseQuestion rootMsg.qNameBuffer (pResetMsg rootMsg) =
      queryQuestion (buffer rootQuery []) :=
    h .ipv4 ⟨_, _, _, _, _, _, _, .inr ⟨rootQuery_answered, rfl⟩⟩
  exact absurd hecho (by decide +kernel)

end Torrentkino
