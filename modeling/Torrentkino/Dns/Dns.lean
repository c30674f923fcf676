import Torrentkino.Lib.CString
import Torrentkino.Shr.Ip

/-!
# `dns/dns.c`

Decoding a DNS query and building the response.

The names of a message are `char` pointers into the `qName_buffer` of the
message that `r_parse` decodes: the name asked for starts at offset 0, and the
target of an SRV record is a suffix of it.  A pointer is therefore an offset,
and everything that reads a name takes the current content of that buffer.

The response is written through a moving pointer.  A `Writer` keeps the bytes
in front of the pointer and the number of bytes of the buffer that were ever
written; the two differ while `p_put32bits`, which stores eight bytes and moves
the pointer by four, has written ahead.
-/

namespace Torrentkino

open Memory CString

/-- `UDP_BUF` -/
def udpBuf : Nat := 1460

/-- `A_Resource_RecordType` -/
def aRecordType : Nat := 1

/-- `AAAA_Resource_RecordType` -/
def aaaaRecordType : Nat := 28

/-- `SRV_Resource_RecordType` -/
def srvRecordType : Nat := 33

/-- The record type of an address of the build. -/
def Build.addrRecordType : Build → Nat
  | .ipv4 => aRecordType
  | .ipv6 => aaaaRecordType

/-- Number of elements of `answer` in `DNS_MSG`. -/
def answerSize : Nat := 16

/-- Size of `qName_buffer` in `DNS_MSG`. -/
def qNameSize : Nat := 256

/-- A `char *` into the name buffer. -/
abbrev NamePtr := Nat

/-- The string behind a name pointer. -/
def nameAt (names : Bytes) (p : NamePtr) : Bytes :=
  cString (names.drop p)

/-- `DNS_Q` -/
structure DnsQ where
  qName : NamePtr
  qType : Nat
  qClass : Nat
deriving DecidableEq, Repr, Inhabited

/-- `DNS_RD`: the members of the union that the daemon uses.  Each record is
read through the member it was written through. -/
structure DnsRd where
  addr : Bytes
  priority : Nat
  weight : Nat
  port : Nat
  target : NamePtr
deriving DecidableEq, Repr, Inhabited

/-- `DNS_RR` -/
structure DnsRr where
  name : NamePtr
  type : Nat
  class' : Nat
  ttl : Nat
  rdLength : Nat
  rdData : DnsRd
deriving DecidableEq, Repr, Inhabited

/-- `DNS_MSG` -/
structure DnsMsg where
  id : Nat
  qr : Nat
  opcode : Nat
  aa : Nat
  tc : Nat
  rd : Nat
  ra : Nat
  rcode : Nat
  qdCount : Nat
  anCount : Nat
  nsCount : Nat
  arCount : Nat
  question : DnsQ
  answer : Nat → DnsRr
  qNameBuffer : Bytes
deriving Inhabited

/-! ## Decoding -/

/-- `QR_MASK` -/
def qrMask : Nat := 0x8000

/-- `OPCODE_MASK` -/
def opcodeMask : Nat := 0x7800

/-- `AA_MASK` -/
def aaMask : Nat := 0x0400

/-- `TC_MASK` -/
def tcMask : Nat := 0x0200

/-- `RD_MASK` -/
def rdMask : Nat := 0x0100

/-- `RA_MASK` -/
def raMask : Nat := 0x8000

/-- `RCODE_MASK` -/
def rcodeMask : Nat := 0x000F

/-- `p_get16bits` -/
def pGet16bits (mem : Mem) (p : Nat) : Nat :=
  (mem p).toNat <<< 8 + (mem (p + 1)).toNat

/-- The loop of `p_decode_domain`: `p` is the read position, `i` the write
position in the name buffer.  On success it returns the position of the
terminating zero byte.  What was written stays written when the name is
refused. -/
def pDecodeDomainLoop (mem : Mem) (size : Nat) :
    Nat → Nat → Nat → Bytes → Option Nat × Bytes
  | 0, _, _, domain => (none, domain)
  | fuel + 1, p, i, domain =>
      if mem p = 0 then
        (some p, splice domain i [0])
      else
        let dot : Nat × Bytes :=
          if i ≠ 0 then (i + 1, splice domain i ['.'.toUInt8]) else (i, domain)
        let len := (mem p).toNat
        if dot.1 + len ≥ 256 ∨ dot.1 + len ≥ size then
          (none, dot.2)
        else
          pDecodeDomainLoop mem size fuel (p + 1 + len) (dot.1 + len)
            (splice dot.2 dot.1 (copy mem (p + 1) len))

/-- `p_decode_domain`: the number of bytes read, or `none` for `-1`.  The loop
writes at least one byte a round and stops at 256. -/
def pDecodeDomain (domain : Bytes) (mem : Mem) (p size : Nat) :
    Option Nat × Bytes :=
  let (stop, domain) := pDecodeDomainLoop mem size 257 p 0 domain
  (stop.map fun q => q + 1 - p, domain)

/-- `p_decode_header` -/
def pDecodeHeader (msg : DnsMsg) (mem : Mem) : DnsMsg :=
  let fields := pGet16bits mem 2
  { msg with
    id := pGet16bits mem 0
    qr := (fields &&& qrMask) >>> 15
    opcode := (fields &&& opcodeMask) >>> 11
    aa := (fields &&& aaMask) >>> 10
    tc := (fields &&& tcMask) >>> 9
    rd := (fields &&& rdMask) >>> 8
    ra := (fields &&& raMask) >>> 7
    rcode := (fields &&& rcodeMask) >>> 0
    qdCount := pGet16bits mem 4
    anCount := pGet16bits mem 6
    nsCount := pGet16bits mem 8
    arCount := pGet16bits mem 10 }

/-- The results of `p_decode_query` other than 1. -/
inductive QueryError where
  /-- `-1`: the message has answers. -/
  | answer
  /-- `-2`: the message has authority records. -/
  | authority
  /-- `-3`: there is not exactly one question. -/
  | questions
  /-- `-4`: the name is refused. -/
  | domain
  /-- `-5`: there is no room for type and class. -/
  | size
deriving DecidableEq, Repr

/-- `p_decode_query`: the result and the message as it is left, in either
case.  The length of the datagram is at least 12. -/
def pDecodeQuery (msg : DnsMsg) (mem : Mem) (size : Nat) :
    Except QueryError Unit × DnsMsg :=
  let msg := pDecodeHeader msg mem
  let size := size - 12
  if msg.anCount ≠ 0 then (.error .answer, msg)
  else if msg.nsCount ≠ 0 then (.error .authority, msg)
  else if msg.qdCount ≠ 1 then (.error .questions, msg)
  else
    let (n, domain) := pDecodeDomain msg.qNameBuffer mem 12 size
    let msg := { msg with qNameBuffer := domain }
    match n with
    | none => (.error .domain, msg)
    | some n =>
        -- `size` is a signed `int` here and may have become negative
        if (size : Int) - n < 4 then (.error .size, msg)
        else
          (.ok (),
            { msg with
              question :=
                { qName := 0
                  qType := pGet16bits mem (12 + n)
                  qClass := pGet16bits mem (12 + n + 2) } })

/-! ## Encoding -/

/-- The part of the buffer in front of the write pointer, and the number of
bytes written from the start of the buffer on. -/
structure Writer where
  out : Bytes
  extent : Nat
deriving DecidableEq, Repr

namespace Writer

/-- An untouched buffer. -/
def empty : Writer := ⟨[], 0⟩

/-- Store `w` at the pointer and move the pointer by `step` bytes. -/
def store (b : Writer) (w : Bytes) (step : Nat) : Writer where
  out := b.out ++ w.take step
  extent := max b.extent (b.out.length + w.length)

/-- Store `w` at the pointer and move behind it. -/
def put (b : Writer) (w : Bytes) : Writer :=
  b.store w w.length

end Writer

/-- The two bytes of a number, high byte first. -/
def be16 (value : Nat) : Bytes :=
  [UInt8.ofNat (value / 256), UInt8.ofNat value]

/-- The four bytes of a number, high byte first. -/
def be32 (value : Nat) : Bytes :=
  be16 (value / 65536) ++ be16 value

/-- `p_put16bits` -/
def pPut16bits (b : Writer) (value : Nat) : Writer :=
  b.put (be16 value)

/-- `p_put32bits`: the result of `htonl` is stored as an eight byte little
endian number. -/
def pPut32bits (b : Writer) (value : Nat) : Writer :=
  b.store (be32 value ++ [0, 0, 0, 0]) 4

/-- The loop of `p_encode_domain`, with the label that the scan for the next
dot has passed so far. -/
def encodeLabels : Bytes → Bytes → Bytes
  | label, [] => UInt8.ofNat label.length :: label ++ [0]
  | label, c :: domain =>
      if c = '.'.toUInt8 then
        UInt8.ofNat label.length :: label ++ encodeLabels [] domain
      else
        encodeLabels (label ++ [c]) domain

/-- `p_encode_domain` -/
def pEncodeDomain (b : Writer) (domain : Bytes) : Writer :=
  b.put (encodeLabels [] domain)

/-- `p_encode_header` -/
def pEncodeHeader (msg : DnsMsg) (b : Writer) : Writer :=
  let b := pPut16bits b msg.id
  let fields := ((msg.qr <<< 15) &&& qrMask) ||| ((msg.rcode <<< 0) &&& rcodeMask)
  let b := pPut16bits b fields
  let b := pPut16bits b msg.qdCount
  let b := pPut16bits b msg.anCount
  let b := pPut16bits b msg.nsCount
  pPut16bits b msg.arCount

/-- One round of the loop in `p_encode_response`. -/
def pEncodeRr (names : Bytes) (b : Writer) (rr : DnsRr) : Writer :=
  let b := pEncodeDomain b (nameAt names rr.name)
  let b := pPut16bits b rr.type
  let b := pPut16bits b rr.class'
  let b := pPut32bits b rr.ttl
  let b := pPut16bits b rr.rdLength
  if rr.type = srvRecordType then
    let b := pPut16bits b rr.rdData.priority
    let b := pPut16bits b rr.rdData.weight
    let b := pPut16bits b rr.rdData.port
    pEncodeDomain b (nameAt names rr.rdData.target)
  else
    b.put rr.rdData.addr

/-- `p_encode_response` -/
def pEncodeResponse (names : Bytes) (msg : DnsMsg) (b : Writer) : Writer :=
  let b := pEncodeHeader msg b
  let b := pEncodeDomain b (nameAt names msg.question.qName)
  let b := pPut16bits b msg.question.qType
  let b := pPut16bits b msg.question.qClass
  if msg.anCount = 0 then b
  else
    (List.range (msg.anCount + msg.arCount)).foldl
      (fun b i => pEncodeRr names b (msg.answer i)) b

/-! ## Building the reply -/

/-- An element of `answer` that does not exist was written. -/
structure AnswerFault where
  index : Nat
deriving DecidableEq, Repr

/-- `p_prepare_msg`, with `Ok_ResponseType` as 0. -/
def pPrepareMsg (msg : DnsMsg) (anCount : Nat) : DnsMsg :=
  { msg with
    rcode := 0
    qr := 1
    aa := 1
    ra := 0
    qdCount := 1
    anCount := anCount
    nsCount := 0
    arCount := 0 }

/-- `p_get_domain_from_srv_record` -/
def pGetDomainFromSrvRecord (names : Bytes) (name : NamePtr) : NamePtr :=
  match strstr (nameAt names name) (cstr "._tcp.") with
  | some i => name + i + 6
  | none =>
      match strstr (nameAt names name) (cstr "._udp.") with
      | some i => name + i + 6
      | none => name

/-- `p_put_srv`, for the pair at offset `p` of the compact list. -/
def pPutSrv (v : Build) (names : Bytes) (qu : DnsQ) (list : Mem) (p : Nat)
    (name : NamePtr) : DnsRr where
  name := qu.qName
  type := srvRecordType
  class' := 1
  ttl := dnsTtl
  rdLength := 6 + (nameAt names name).length + 2
  rdData :=
    { addr := []
      priority := 0
      weight := 0
      port := pGet16bits list (p + v.ipSize)
      target := name }

/-- `p_put_addr`, for the pair at offset `p` of the compact list. -/
def pPutAddr (v : Build) (qu : DnsQ) (list : Mem) (p : Nat) (name : NamePtr) :
    DnsRr where
  name := name
  type := v.addrRecordType
  class' := qu.qClass
  ttl := dnsTtl
  rdLength := v.ipSize
  rdData :=
    { addr := copy list p v.ipSize
      priority := 0
      weight := 0
      port := 0
      target := 0 }

/-- The loops of `p_reply_msg`: fill the elements of `answer` from index `i`
on, one for each of `n` pairs from offset `p` on. -/
def pPutAnswers (v : Build) (put : Nat → DnsRr) :
    Nat → Nat → Nat → (Nat → DnsRr) → Except AnswerFault (Nat → DnsRr)
  | 0, _, _, answer => .ok answer
  | n + 1, i, p, answer =>
      if i < answerSize then
        pPutAnswers v put n (i + 1) (p + v.ipSizeMetaPair)
          (Function.update answer i (put p))
      else
        .error ⟨i⟩

/-- `p_reply_msg` -/
def pReplyMsg (v : Build) (names : Bytes) (msg : DnsMsg) (list : Mem)
    (listSize : Nat) : Except AnswerFault DnsMsg :=
  let qu := msg.question
  let msg := pPrepareMsg msg (listSize / v.ipSizeMetaPair)
  if qu.qType = srvRecordType then do
    let msg := { msg with arCount := msg.anCount }
    let domain := pGetDomainFromSrvRecord names qu.qName
    let answer ← pPutAnswers v (fun p => pPutSrv v names qu list p domain)
      msg.anCount 0 0 msg.answer
    let answer ← pPutAnswers v (fun p => pPutAddr v qu list p domain)
      msg.arCount msg.anCount 0 answer
    .ok { msg with answer := answer }
  else do
    let answer ← pPutAnswers v (fun p => pPutAddr v qu list p qu.qName)
      msg.anCount 0 0 msg.answer
    .ok { msg with answer := answer }

/-- `p_reset_msg` -/
def pResetMsg (msg : DnsMsg) : DnsMsg :=
  let msg := pPrepareMsg msg 0
  { msg with
    answer := Function.update msg.answer 0
      { msg.answer 0 with
        name := msg.question.qName
        class' := msg.question.qClass
        ttl := dnsTtl
        type := 0
        rdLength := 0 } }

end Torrentkino
