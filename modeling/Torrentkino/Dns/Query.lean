import Torrentkino.Dns.Name

/-!
# Queries

`p_decode_query` accepts a datagram by its header, its name and its length.

**Results.**
* `pDecodeQuery_cases`: how far a query is read, and what is left in the message.
* `pDecodeQuery_spec`, `pDecodeQuery_eq_ok`: what an accepted query looks like, and that
  such a query is accepted.
-/

namespace Torrentkino

open Memory CString DnsWire

/-! ## Numbers -/

theorem be16_pGet16bits (mem : Mem) (p : Nat) : be16 (pGet16bits mem p) = [mem p, mem (p + 1)] := by
  have hhi := (mem p).toNat_lt
  have hlo := (mem (p + 1)).toNat_lt
  have hvalue : pGet16bits mem p = (mem p).toNat * 256 + (mem (p + 1)).toNat := by
    rw [pGet16bits, Nat.shiftLeft_eq]
  rw [be16, hvalue]
  congr 1
  · rw [← UInt8.toNat_inj]
    simp
    omega
  · congr 1
    rw [← UInt8.toNat_inj]
    simp

theorem pGet16bits_of_holds {mem : Mem} {p n : Nat} (h : Holds mem p (be16 n)) :
    pGet16bits mem p = n % 65536 := by
  obtain ⟨hhi, hlo, -⟩ := h
  rw [pGet16bits, Nat.shiftLeft_eq, hhi, hlo]
  simp only [UInt8.toNat_ofNat']
  omega

/-! ## Accepted queries -/

/-- The header is refused, or the name is in the buffer, and the query is refused behind it
or accepted. -/
theorem pDecodeQuery_cases (msg : DnsMsg) (mem : Mem) (size : Nat) :
    (∃ e, (pDecodeQuery msg mem size).1 = .error e) ∧
        (pDecodeQuery msg mem size).2.qNameBuffer = msg.qNameBuffer ∨
      (pGet16bits mem 4 = 1 ∧ pGet16bits mem 6 = 0 ∧ pGet16bits mem 8 = 0) ∧
        (pDecodeQuery msg mem size).2.qNameBuffer =
          (pDecodeDomain msg.qNameBuffer mem 12 (size - 12)).2 ∧
        ((∃ e, (pDecodeQuery msg mem size).1 = .error e) ∨
          ∃ n, (pDecodeDomain msg.qNameBuffer mem 12 (size - 12)).1 = some n ∧
            n + 4 ≤ size - 12 ∧
            (pDecodeQuery msg mem size).2.question =
              ⟨0, pGet16bits mem (12 + n), pGet16bits mem (12 + n + 2)⟩) := by
  simp only [pDecodeQuery]
  split
  · exact .inl ⟨⟨_, rfl⟩, rfl⟩
  rename_i han
  split
  · exact .inl ⟨⟨_, rfl⟩, rfl⟩
  rename_i hns
  split
  · exact .inl ⟨⟨_, rfl⟩, rfl⟩
  rename_i hqd
  refine .inr ⟨⟨not_not.mp hqd, not_not.mp han, not_not.mp hns⟩, ?_⟩
  split
  · exact ⟨rfl, .inl ⟨_, rfl⟩⟩
  rename_i n hn
  split
  · exact ⟨rfl, .inl ⟨_, rfl⟩⟩
  · rename_i hsize
    exact ⟨rfl, .inr ⟨n, hn, by omega, rfl⟩⟩

/-- An accepted query has a name, which is in the buffer, and its type and class
behind the name. -/
theorem pDecodeQuery_spec
    {msg msg' : DnsMsg} {mem : Mem} {size : Nat}
    (h : pDecodeQuery msg mem size = (.ok (), msg')) :
    ∃ n, pDecodeDomain msg.qNameBuffer mem 12 (size - 12) = (some n, msg'.qNameBuffer) ∧
      msg'.question = ⟨0, pGet16bits mem (12 + n), pGet16bits mem (12 + n + 2)⟩ := by
  have hcases := pDecodeQuery_cases msg mem size
  rw [h] at hcases
  rcases hcases with ⟨⟨e, he⟩, -⟩ | ⟨-, hname, ⟨e, he⟩ | ⟨n, hn, -, hquestion⟩⟩
  · cases he
  · cases he
  · exact ⟨n, Prod.ext hn hname.symm, hquestion⟩

/-- One question, no answers and no authority records, a name that is accepted, and
type and class behind it. -/
theorem pDecodeQuery_eq_ok
    {msg : DnsMsg} {mem : Mem} {size n : Nat} {domain : Bytes}
    (hquestions : pGet16bits mem 4 = 1) (hanswers : pGet16bits mem 6 = 0)
    (hauthority : pGet16bits mem 8 = 0)
    (hdomain : pDecodeDomain msg.qNameBuffer mem 12 (size - 12) = (some n, domain))
    (hsize : n + 4 ≤ size - 12) :
    pDecodeQuery msg mem size =
      (.ok (),
        { pDecodeHeader msg mem with
          qNameBuffer := domain
          question := ⟨0, pGet16bits mem (12 + n), pGet16bits mem (12 + n + 2)⟩ }) := by
  have hqd : (pDecodeHeader msg mem).qdCount = 1 := hquestions
  have han : (pDecodeHeader msg mem).anCount = 0 := hanswers
  have hns : (pDecodeHeader msg mem).nsCount = 0 := hauthority
  have hbuffer : (pDecodeHeader msg mem).qNameBuffer = msg.qNameBuffer := rfl
  rw [pDecodeQuery]
  simp only [hqd, han, hns, hbuffer, hdomain, ne_eq, not_true_eq_false, if_false]
  rw [if_neg (by omega)]

end Torrentkino
