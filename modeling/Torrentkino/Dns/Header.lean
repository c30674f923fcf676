import Torrentkino.Dns.Query

/-!
# The header of a message

`p_encode_header` writes two of the seven fields that `p_decode_header` finds in the
second word of a header, and `RA_MASK` is the mask of another field.

**Result.** `header_kept_iff`: which headers come back as they are.
-/

namespace Torrentkino

open Memory

/-- The fields have their widths. -/
structure HeaderInRange (msg : DnsMsg) : Prop where
  id : msg.id < 65536
  qr : msg.qr < 2
  opcode : msg.opcode < 16
  aa : msg.aa < 2
  tc : msg.tc < 2
  rd : msg.rd < 2
  ra : msg.ra < 2
  rcode : msg.rcode < 16
  qdCount : msg.qdCount < 65536
  anCount : msg.anCount < 65536
  nsCount : msg.nsCount < 65536
  arCount : msg.arCount < 65536

/-- The fields of the header are the same. -/
structure SameHeader (msg msg' : DnsMsg) : Prop where
  id : msg'.id = msg.id
  qr : msg'.qr = msg.qr
  opcode : msg'.opcode = msg.opcode
  aa : msg'.aa = msg.aa
  tc : msg'.tc = msg.tc
  rd : msg'.rd = msg.rd
  ra : msg'.ra = msg.ra
  rcode : msg'.rcode = msg.rcode
  qdCount : msg'.qdCount = msg.qdCount
  anCount : msg'.anCount = msg.anCount
  nsCount : msg'.nsCount = msg.nsCount
  arCount : msg'.arCount = msg.arCount

/-- What `p_encode_header` writes is read by `p_decode_header` as the same header. -/
def HeaderKept (msg : DnsMsg) : Prop :=
  ∀ (into : DnsMsg) (after : Bytes),
    SameHeader msg (pDecodeHeader into (buffer (pEncodeHeader msg .empty).out after))

/-- The second word of an encoded header. -/
def headerFields (msg : DnsMsg) : Nat :=
  ((msg.qr <<< 15) &&& qrMask) ||| ((msg.rcode <<< 0) &&& rcodeMask)

theorem out_pEncodeHeader (msg : DnsMsg) :
    (pEncodeHeader msg .empty).out =
      be16 msg.id ++ (be16 (headerFields msg) ++ (be16 msg.qdCount ++ (be16 msg.anCount ++
        (be16 msg.nsCount ++ be16 msg.arCount)))) := by
  simp only [pEncodeHeader, pPut16bits, Writer.put, Writer.store, Writer.empty, List.take_length,
    List.nil_append, List.append_assoc, headerFields]

/-- What `p_decode_header` makes of the second word. -/
theorem decode_headerFields :
    ∀ (qr : Fin 2) (rcode : Fin 16),
      let fields := (((qr.val <<< 15) &&& qrMask) ||| ((rcode.val <<< 0) &&& rcodeMask)) % 65536
      (fields &&& qrMask) >>> 15 = qr ∧ (fields &&& opcodeMask) >>> 11 = 0 ∧
        (fields &&& aaMask) >>> 10 = 0 ∧ (fields &&& tcMask) >>> 9 = 0 ∧
        (fields &&& rdMask) >>> 8 = 0 ∧ (fields &&& raMask) >>> 7 = 256 * qr ∧
        (fields &&& rcodeMask) >>> 0 = rcode := by
  decide +kernel

/-- The header that comes back. -/
theorem pDecodeHeader_pEncodeHeader
    {msg : DnsMsg} (h : HeaderInRange msg) (into : DnsMsg) (after : Bytes) :
    pDecodeHeader into (buffer (pEncodeHeader msg .empty).out after) =
      { into with
        id := msg.id
        qr := msg.qr
        opcode := 0
        aa := 0
        tc := 0
        rd := 0
        ra := 256 * msg.qr
        rcode := msg.rcode
        qdCount := msg.qdCount
        anCount := msg.anCount
        nsCount := msg.nsCount
        arCount := msg.arCount } := by
  have hself := holds_buffer_self (pEncodeHeader msg .empty).out after
  rw [out_pEncodeHeader] at hself ⊢
  generalize buffer _ after = mem at hself ⊢
  simp only [holds_append, show ∀ n, (be16 n).length = 2 from fun _ => rfl, Nat.zero_add,
    Nat.reduceAdd] at hself
  obtain ⟨hid, hfields, hqd, han, hns, har⟩ := hself
  obtain ⟨hqr, hopcode, haa, htc, hrd, hra, hrcode⟩ :=
    decode_headerFields ⟨msg.qr, h.qr⟩ ⟨msg.rcode, h.rcode⟩
  have hword : pGet16bits mem 2 = headerFields msg % 65536 := pGet16bits_of_holds hfields
  rw [headerFields] at hword
  rw [pDecodeHeader]
  simp only [pGet16bits_of_holds hid, hword, pGet16bits_of_holds hqd, pGet16bits_of_holds han,
    pGet16bits_of_holds hns, pGet16bits_of_holds har, Nat.mod_eq_of_lt h.id,
    Nat.mod_eq_of_lt h.qdCount, Nat.mod_eq_of_lt h.anCount, Nat.mod_eq_of_lt h.nsCount,
    Nat.mod_eq_of_lt h.arCount, hqr, hopcode, haa, htc, hrd, hra, hrcode]

/-- A header comes back as it is when the response code is the only field of the second
word that is set. -/
theorem header_kept_iff {msg : DnsMsg} (h : HeaderInRange msg) :
    HeaderKept msg ↔
      msg.qr = 0 ∧ msg.opcode = 0 ∧ msg.aa = 0 ∧ msg.tc = 0 ∧ msg.rd = 0 ∧ msg.ra = 0 := by
  have hra := h.ra
  constructor
  · intro hkept
    have hsame := hkept msg []
    rw [pDecodeHeader_pEncodeHeader h] at hsame
    have hflag : 256 * msg.qr = msg.ra := hsame.ra
    exact ⟨by omega, hsame.opcode.symm, hsame.aa.symm, hsame.tc.symm, hsame.rd.symm, by omega⟩
  · rintro ⟨hqr, hopcode, haa, htc, hrd, hra⟩ into after
    rw [pDecodeHeader_pEncodeHeader h]
    exact ⟨rfl, rfl, hopcode.symm, haa.symm, htc.symm, hrd.symm, by rw [hqr, hra], rfl, rfl, rfl,
      rfl, rfl⟩

/-- The header of a response with one answer to a standard query. -/
def responseHeader : DnsMsg :=
  pPrepareMsg { (default : DnsMsg) with id := 1, rd := 1 } 1

theorem headerInRange_responseHeader : HeaderInRange responseHeader := by
  constructor <;> decide

theorem header_kept_iff_responseHeader :
    HeaderKept responseHeader ↔
      responseHeader.qr = 0 ∧ responseHeader.opcode = 0 ∧ responseHeader.aa = 0 ∧
        responseHeader.tc = 0 ∧ responseHeader.rd = 0 ∧ responseHeader.ra = 0 :=
  header_kept_iff headerInRange_responseHeader

/-- The `aa` flag of a response gets lost. -/
theorem header_kept_fails : ¬ ∀ msg : DnsMsg, HeaderInRange msg → HeaderKept msg := by
  intro h
  have hsame := h responseHeader headerInRange_responseHeader responseHeader []
  rw [pDecodeHeader_pEncodeHeader headerInRange_responseHeader] at hsame
  exact absurd hsame.aa (by decide)

end Torrentkino
