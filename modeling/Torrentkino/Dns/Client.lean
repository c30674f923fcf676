import Torrentkino.Dns.Name
import Torrentkino.Shr.Str

/-!
# `dns/client.c`

The name service of the system asks the daemon for the addresses of a host.  The
socket is not modelled: `ngethostbyname` is cut in two, what it sends and what it
makes of the datagram that arrives.

The buffer of the query is used again for the response, and what neither fills is
what was on the stack.

**Results.**
* `changetoDnsNameFormat_eq`: the client writes a name as `p_encode_domain` does.
* `readName_wireName`: `ReadName` reads a name of hostname characters, and counts its
  bytes.
-/

namespace Torrentkino

open Memory CString DnsWire

/-- An invalid memory access of the client, or a loop without an end. -/
inductive ClientFault where
  /-- `ReadName` writes behind the 256 bytes of the name. -/
  | nameOverflow
  /-- `ReadName` writes in front of them. -/
  | nameUnderflow
  /-- `ReadName` follows pointers in a circle. -/
  | endless
  /-- A byte behind the buffer is read. -/
  | readBeyond
deriving DecidableEq, Repr

/-! ## The query -/

/-- The loop of `ChangetoDnsNameFormat`, with the number of characters that are left. -/
def changetoLoop (host : Bytes) : Nat → Nat → Nat → Bytes
  | 0, _, _ => [0]
  | n + 1, i, lock =>
      if host.getD i 0 = '.'.toUInt8 then
        UInt8.ofNat (i - lock) :: (host.drop lock).take (i - lock) ++
          changetoLoop host n (i + 1) (i + 1)
      else
        changetoLoop host n (i + 1) lock

/-- `ChangetoDnsNameFormat`: the bytes that it writes.  A dot is appended to the host
first. -/
def changetoDnsNameFormat (host : Bytes) : Bytes :=
  let host := host ++ ['.'.toUInt8]
  changetoLoop host host.length 0 0

/-- `struct DNS_HEADER` -/
structure DnsHeader where
  id : Nat
  rd : Nat
  tc : Nat
  aa : Nat
  opcode : Nat
  qr : Nat
  rcode : Nat
  cd : Nat
  ad : Nat
  z : Nat
  ra : Nat
  qCount : Nat
  ansCount : Nat
  authCount : Nat
  addCount : Nat

/-- The header in memory.  The bit fields start at the low bits, and all numbers were
converted by `htons`. -/
def DnsHeader.bytes (h : DnsHeader) : Bytes :=
  be16 h.id ++
    [UInt8.ofNat (h.rd + 2 * h.tc + 4 * h.aa + 8 * h.opcode + 128 * h.qr),
      UInt8.ofNat (h.rcode + 16 * h.cd + 32 * h.ad + 64 * h.z + 128 * h.ra)] ++
    be16 h.qCount ++ be16 h.ansCount ++ be16 h.authCount ++ be16 h.addCount

/-- The header of a query. -/
def queryHeader (pid : Nat) : DnsHeader where
  id := pid
  rd := 1
  tc := 0
  aa := 0
  opcode := 0
  qr := 0
  rcode := 0
  cd := 0
  ad := 0
  z := 0
  ra := 0
  qCount := 1
  ansCount := 0
  authCount := 0
  addCount := 0

/-- The size of `buf`. -/
def clientBufSize : Nat := 65536

/-- `strlen(qname)` -/
def qnameLength (buf : Mem) : Nat :=
  (cString (copy buf 12 (clientBufSize - 12))).length

/-- `ngethostbyname` up to `sendto`: the buffer, and the bytes that are sent. -/
def ngethostbynameQuery (buf : Mem) (pid : Nat) (host : Bytes) (queryType : Nat) : Mem × Bytes :=
  let buf := write buf 0 (queryHeader pid).bytes
  let buf := write buf 12 (changetoDnsNameFormat host)
  let buf := write buf (12 + (qnameLength buf + 1)) (be16 queryType ++ be16 1)
  (buf, copy buf 0 (12 + (qnameLength buf + 1) + 4))

/-! ## The response -/

/-- Rounds after which `ReadName` has filled the name or goes in a circle: at most 256
bytes, and 16384 places to jump to before each of them. -/
def readNameFuel : Nat := 257 * 16385

/-- The first loop of `ReadName`: the name in front of the write position, whether it
has jumped, and the count. -/
def readNameLoop (buffer : Mem) :
    Nat → Nat → Bool → Nat → Bytes → Except ClientFault (Bytes × Bool × Nat)
  | 0, _, _, _, _ => .error .endless
  | fuel + 1, reader, jumped, count, name =>
      if clientBufSize ≤ reader then .error .readBeyond
      else if buffer reader = 0 then .ok (name, jumped, count)
      else if 192 ≤ (buffer reader).toNat then
        if clientBufSize ≤ reader + 1 then .error .readBeyond
        else
          -- the reader is set one byte ahead of the offset and moved on
          let offset := (buffer reader).toNat * 256 + (buffer (reader + 1)).toNat - 49152
          readNameLoop buffer fuel offset true count name
      else if name.length < 256 then
        readNameLoop buffer fuel (reader + 1) jumped (if jumped then count else count + 1)
          (name ++ [buffer reader])
      else .error .nameOverflow

/-- The inner loop of the conversion: `n` characters move to the front by one. -/
def shiftLabel : Nat → Nat → Bytes → Except ClientFault (Nat × Bytes)
  | 0, i, name => .ok (i, name)
  | n + 1, i, name =>
      if i + 1 < name.length then shiftLabel n (i + 1) (name.set i (name.getD (i + 1) 0))
      else .error .nameOverflow

/-- The conversion of `3www6google3com` to `www.google.com.`, in place. -/
def convertName : Nat → Nat → Bytes → Except ClientFault (Nat × Bytes)
  | 0, _, _ => .error .endless
  | fuel + 1, i, name =>
      -- `strlen` needs the zero byte
      if (cString name).length = name.length then .error .nameOverflow
      else if (cString name).length ≤ i then .ok (i, name)
      else do
        let (i, name) ← shiftLabel (name.getD i 0).toNat i name
        convertName fuel (i + 1) (name.set i '.'.toUInt8)

/-- `ReadName`: the 256 bytes of the name, and the count. -/
def readName (buffer : Mem) (reader : Nat) : Except ClientFault (Bytes × Nat) := do
  let (name, jumped, count) ← readNameLoop buffer readNameFuel reader false 1 []
  if 256 ≤ name.length then .error .nameOverflow
  else do
    let (i, name) ← convertName 257 0 (name ++ List.replicate (256 - name.length) 0)
    if i = 0 then .error .nameUnderflow
    else .ok (name.set (i - 1) 0, if jumped then count + 1 else count)

/-- The loop over the answers, of which `n` are left: the result of `ngethostbyname`
and the bytes in `address`. -/
def answerLoop (v : Build) (buf : Mem) :
    Nat → Nat → Nat → Bytes → Except ClientFault (Nat × Bytes)
  | 0, _, result, address => .ok (result, address)
  | n + 1, reader, result, address => do
      let (_, stop) ← readName buf reader
      let resource := reader + stop
      let reader := resource + 10
      if clientBufSize < reader then .error .readBeyond
      else if pGet16bits buf (resource + 8) ≠ v.ipSize then .ok (0, address)
      else if pGet16bits buf resource ≠ v.addrRecordType then .ok (0, address)
      else if clientBufSize < reader + v.ipSize then .error .readBeyond
      else
        answerLoop v buf n (reader + v.ipSize) (result + 1) (address ++ copy buf reader v.ipSize)

/-- `DNS_ANSWERS_MAX` -/
def dnsAnswersMax : Nat := 8

/-- `ngethostbyname` behind `recvfrom`: the result, and the bytes in `address`. -/
def ngethostbynameAnswer (v : Build) (buf : Mem) (datagram : Bytes) :
    Except ClientFault (Nat × Bytes) :=
  let buf := write buf 0 (datagram.take clientBufSize)
  let ansCount := pGet16bits buf 6
  if pGet16bits buf 4 ≠ 1 then .ok (0, [])
  else if ansCount < 1 ∨ ansCount > 8 then .ok (0, [])
  else if pGet16bits buf 8 ≠ 0 then .ok (0, [])
  else if pGet16bits buf 10 ≠ 0 then .ok (0, [])
  else answerLoop v buf (min ansCount dnsAnswersMax) (12 + (qnameLength buf + 1) + 4) 0 []

/-! ## The name of the query -/

theorem changetoLoop_eq
    {host front label rest : Bytes}
    (hhost : host = front ++ label ++ (rest ++ ['.'.toUInt8])) :
    changetoLoop host (rest.length + 1) (front.length + label.length) front.length =
      encodeLabels label rest := by
  induction rest generalizing front label with
  | nil =>
      have hc : host.getD (front.length + label.length) 0 = '.'.toUInt8 := by
        simp [hhost]
      have hlabel : (host.drop front.length).take label.length = label := by
        simp [hhost]
      rw [List.length_nil, changetoLoop, if_pos hc, Nat.add_sub_cancel_left, hlabel,
        changetoLoop, encodeLabels]
  | cons c rest ih =>
      have hc : host.getD (front.length + label.length) 0 = c := by
        simp [hhost]
      rw [List.length_cons, changetoLoop, hc, encodeLabels]
      by_cases hdot : c = '.'.toUInt8
      · have hlabel : (host.drop front.length).take label.length = label := by
          simp [hhost]
        have hnext : host = (front ++ label ++ [c]) ++ [] ++ (rest ++ ['.'.toUInt8]) := by
          simp [hhost]
        have hrest := ih hnext
        rw [List.length_nil, Nat.add_zero, List.length_append, List.length_append,
          List.length_singleton] at hrest
        rw [if_pos hdot, if_pos hdot, Nat.add_sub_cancel_left, hlabel, hrest]
      · have hnext : host = front ++ (label ++ [c]) ++ (rest ++ ['.'.toUInt8]) := by
          simp [hhost]
        have hrest := ih hnext
        rw [List.length_append, List.length_singleton, ← Nat.add_assoc] at hrest
        rw [if_neg hdot, if_neg hdot, hrest]

/-- The client and the daemon write a name in the same way. -/
theorem changetoDnsNameFormat_eq (host : Bytes) :
    changetoDnsNameFormat host = encodeLabels [] host := by
  have hhost : host ++ ['.'.toUInt8] = [] ++ [] ++ (host ++ ['.'.toUInt8]) := rfl
  have h := changetoLoop_eq hhost
  rwa [← List.length_singleton (a := '.'.toUInt8), ← List.length_append] at h

/-! ## Names of hosts -/

/-- The labels without the zero byte at their end. -/
def labelBytes (ls : List Bytes) : Bytes :=
  ls.flatMap fun l => UInt8.ofNat l.length :: l

theorem wireName_eq (ls : List Bytes) : wireName ls = labelBytes ls ++ [0] := by
  induction ls with
  | nil =>
      rfl
  | cons l ls ih =>
      rw [wireName, ih, labelBytes, labelBytes, List.flatMap_cons, List.append_assoc]

/-- A name that consists of characters of hostnames. -/
structure HostName extends DnsName where
  hostname : ∀ l ∈ labels, strValidHostname l = true

theorem toNat_lt_of_hostnameChar {c : UInt8} (hc : hostnameChar c = true) : c.toNat < 192 := by
  have h9 : '9'.toUInt8.toNat = 57 := by decide
  have hZ : 'Z'.toUInt8.toNat = 90 := by decide
  have hz : 'z'.toUInt8.toNat = 122 := by decide
  have hdash : '-'.toUInt8.toNat = 45 := by decide
  have hunder : '_'.toUInt8.toNat = 95 := by decide
  have hdot : '.'.toUInt8.toNat = 46 := by decide
  simp [hostnameChar, UInt8.le_iff_toNat_le, ← UInt8.toNat_inj] at hc
  omega

namespace HostName

/-- The bytes of the name are neither zero bytes nor pointers. -/
theorem mem_labelBytes (h : HostName) {c : UInt8} (hc : c ∈ labelBytes h.labels) :
    c ≠ 0 ∧ c.toNat < 192 := by
  obtain ⟨l, hl, hc⟩ := List.mem_flatMap.mp hc
  rcases List.mem_cons.mp hc with rfl | hc
  · obtain ⟨hpos, hle⟩ := h.label_length l hl
    have hlen : (UInt8.ofNat l.length).toNat = l.length := toNat_ofNat_length (by omega)
    refine ⟨?_, by omega⟩
    intro hzero
    rw [hzero] at hlen
    change 0 = l.length at hlen
    omega
  · refine ⟨fun hzero => (h.label_chars l hl).2 (hzero ▸ hc), ?_⟩
    exact toNat_lt_of_hostnameChar (List.all_eq_true.mp (h.hostname l hl) c hc)

theorem length_labelBytes_le (h : HostName) : (labelBytes h.labels).length ≤ 254 := by
  have hlen := h.length_le
  have hwire := length_wireName_of_ne_nil h.labels_ne_nil
  rw [wireName_eq, List.length_append, List.length_singleton] at hwire
  omega

end HostName

theorem qnameLength_eq {buf : Mem} (h : HostName) (hbuf : Holds buf 12 (wireName h.labels)) :
    qnameLength buf = (labelBytes h.labels).length := by
  have hlen := h.length_labelBytes_le
  have hwire : (wireName h.labels).length = (labelBytes h.labels).length + 1 := by
    rw [wireName_eq, List.length_append, List.length_singleton]
  have hsize : clientBufSize - 12 = (wireName h.labels).length +
      (clientBufSize - 12 - (wireName h.labels).length) := by
    rw [hwire, clientBufSize]
    omega
  have hzero : (0 : UInt8) ∉ labelBytes h.labels := fun hc => (h.mem_labelBytes hc).1 rfl
  rw [qnameLength, hsize, copy_add, copy_of_holds hbuf, wireName_eq, List.append_assoc,
    List.singleton_append, cString_append_zero, cString_eq_self hzero]

/-- The header, and the question for the addresses of the host. -/
theorem ngethostbynameQuery_eq (buf : Mem) (pid : Nat) (h : HostName) (queryType : Nat) :
    (ngethostbynameQuery buf pid h.text queryType).2 =
      (queryHeader pid).bytes ++ (wireName h.labels ++ (be16 queryType ++ be16 1)) := by
  let w₁ := (queryHeader pid).bytes
  let w₂ := wireName h.labels
  let w₃ := be16 queryType ++ be16 1
  let buf₁ := write buf 0 w₁
  let buf₂ := write buf₁ 12 w₂
  let buf₃ := write buf₂ (12 + w₂.length) w₃
  have hlen : w₁.length = 12 := rfl
  have h₁ : Holds buf₂ 0 w₁ := holds_write_of_disjoint w₂ (.inl (Nat.le_of_eq hlen))
    (holds_write_self buf 0 w₁)
  have h₂ : Holds buf₂ 12 w₂ := holds_write_self buf₁ 12 w₂
  have hname : qnameLength buf₂ + 1 = w₂.length := by
    rw [qnameLength_eq h h₂]
    simp only [w₂, wireName_eq, List.length_append, List.length_singleton]
  have h₁' : Holds buf₃ 0 w₁ := holds_write_of_disjoint w₃ (.inl (by rw [hlen]; omega)) h₁
  have h₂' : Holds buf₃ 12 w₂ := holds_write_of_disjoint w₃ (.inl (Nat.le_refl _)) h₂
  have h₃' : Holds buf₃ (12 + w₂.length) w₃ := holds_write_self buf₂ (12 + w₂.length) w₃
  have hname' : qnameLength buf₃ + 1 = w₂.length := by
    rw [qnameLength_eq h h₂']
    simp only [w₂, wireName_eq, List.length_append, List.length_singleton]
  have hall : Holds buf₃ 0 (w₁ ++ (w₂ ++ w₃)) := by
    rw [holds_append, holds_append, hlen]
    exact ⟨h₁', h₂', h₃'⟩
  have hsize : 12 + w₂.length + 4 = (w₁ ++ (w₂ ++ w₃)).length := by
    rw [List.length_append, List.length_append, hlen]
    exact Nat.add_assoc 12 w₂.length 4
  have hchange : changetoDnsNameFormat h.text = w₂ := by
    rw [changetoDnsNameFormat_eq, h.encodeLabels_text]
  rw [ngethostbynameQuery, hchange]
  change copy (write buf₂ (12 + (qnameLength buf₂ + 1)) w₃) 0
    (12 + (qnameLength (write buf₂ (12 + (qnameLength buf₂ + 1)) w₃) + 1) + 4) = _
  rw [hname]
  change copy buf₃ 0 (12 + (qnameLength buf₃ + 1) + 4) = _
  rw [hname', hsize]
  exact copy_of_holds hall

/-! ## `ReadName` -/

/-- Bytes that are neither the end of the name nor pointers are copied. -/
theorem readNameLoop_of_holds
    {mem : Mem} {w : Bytes} (hw : ∀ c ∈ w, c ≠ 0 ∧ c.toNat < 192) {fuel p : Nat}
    (hfuel : w.length < fuel) (hmem : Holds mem p (w ++ [0]))
    (hbuf : p + w.length < clientBufSize) {name : Bytes} (hlen : name.length + w.length ≤ 256) (count : Nat) :
    readNameLoop mem fuel p false count name = .ok (name ++ w, false, count + w.length) := by
  induction w generalizing fuel p name count with
  | nil =>
      cases fuel with
      | zero =>
          cases hfuel
      | succ fuel =>
          rw [List.length_nil, Nat.add_zero] at hbuf
          rw [readNameLoop, if_neg (Nat.not_le.mpr hbuf), if_pos hmem.1, List.append_nil]
          rfl
  | cons c w ih =>
      cases fuel with
      | zero =>
          cases hfuel
      | succ fuel =>
          obtain ⟨⟨hzero, hpointer⟩, hw⟩ := List.forall_mem_cons.mp hw
          obtain ⟨hc, hmem⟩ := hmem
          rw [List.length_cons] at hlen hbuf
          rw [readNameLoop, if_neg (by omega), hc, if_neg hzero, if_neg (by omega),
            if_pos (by omega), ih hw (Nat.lt_of_succ_lt_succ hfuel) hmem (by omega)
              (by rw [List.length_append, List.length_singleton]; omega)]
          simp only [List.append_assoc, List.singleton_append, List.length_cons,
            Bool.false_eq_true, if_false, Except.ok.injEq, Prod.mk.injEq, true_and]
          omega

/-- The characters of a label move over its length byte. -/
theorem shiftLabel_eq (front l rest : Bytes) (x : UInt8) :
    ∃ y, shiftLabel l.length front.length (front ++ x :: l ++ rest) =
      .ok (front.length + l.length, front ++ l ++ y :: rest) := by
  induction l generalizing front x with
  | nil =>
      exact ⟨x, by simp [shiftLabel]⟩
  | cons c l ih =>
      obtain ⟨y, hy⟩ := ih (front ++ [c]) c
      refine ⟨y, ?_⟩
      have hroom : front.length + 1 < (front ++ x :: (c :: l) ++ rest).length := by
        simp
      have hset : (front ++ x :: (c :: l) ++ rest).set front.length
          ((front ++ x :: (c :: l) ++ rest).getD (front.length + 1) 0) =
          (front ++ [c]) ++ c :: l ++ rest := by
        simp [List.getD_eq_getElem?_getD]
      rw [List.length_cons, shiftLabel, if_pos hroom, hset]
      rw [List.length_append, List.length_singleton] at hy
      rw [hy]
      simp [Nat.add_assoc, Nat.add_comm 1]

/-- The labels with a dot behind each of them. -/
def dottedLabels (ls : List Bytes) : Bytes :=
  ls.flatMap fun l => l ++ ['.'.toUInt8]

theorem dottedLabels_eq {ls : List Bytes} (hls : ls ≠ []) :
    dottedLabels ls = dotted ls ++ ['.'.toUInt8] := by
  induction ls with
  | nil =>
      exact absurd rfl hls
  | cons l ls ih =>
      rcases eq_or_ne ls [] with rfl | hne
      · simp [dottedLabels, dotted]
      · have hrest := ih hne
        rw [dottedLabels] at hrest ⊢
        rw [dotted, List.intercalate_cons_of_ne_nil hne, List.flatMap_cons, hrest, dotted]
        simp

/-- A round of the conversion rewrites one label. -/
theorem convertName_label
    {done l rest : Bytes} (hdone : (0 : UInt8) ∉ done) (hl : 1 ≤ l.length ∧ l.length < 256)
    (hzero : (0 : UInt8) ∈ l ++ rest) (fuel : Nat) :
    convertName (fuel + 1) done.length (done ++ UInt8.ofNat l.length :: l ++ rest) =
      convertName fuel (done ++ l ++ ['.'.toUInt8]).length
        (done ++ l ++ ['.'.toUInt8] ++ rest) := by
  have hlen : (UInt8.ofNat l.length).toNat = l.length := toNat_ofNat_length hl.2
  have hne : UInt8.ofNat l.length ≠ 0 := by
    intro hzero
    rw [hzero] at hlen
    change 0 = l.length at hlen
    omega
  have hstrlen : done.length <
      (cString (done ++ UInt8.ofNat l.length :: l ++ rest)).length := by
    rw [List.append_assoc, List.cons_append, cString_append_of_not_mem hdone,
      cString_cons_of_ne _ hne, List.length_append, List.length_cons]
    omega
  have hend : (cString (done ++ UInt8.ofNat l.length :: l ++ rest)).length ≠
      (done ++ UInt8.ofNat l.length :: l ++ rest).length :=
    fun h => not_mem_of_length_cString h (by
      rw [List.append_assoc, List.cons_append]
      exact List.mem_append_right _ (List.mem_cons_of_mem _ hzero))
  have hc : (done ++ UInt8.ofNat l.length :: l ++ rest).getD done.length 0 =
      UInt8.ofNat l.length := by
    simp
  obtain ⟨y, hshift⟩ := shiftLabel_eq done l rest (UInt8.ofNat l.length)
  have hset : (done ++ l ++ y :: rest).set (done.length + l.length) '.'.toUInt8 =
      done ++ l ++ ['.'.toUInt8] ++ rest := by
    rw [← List.length_append]
    simp
  have hnext : (done ++ l ++ ['.'.toUInt8]).length = done.length + l.length + 1 := by
    simp [Nat.add_assoc]
  rw [convertName, if_neg hend, if_neg (Nat.not_le.mpr hstrlen), hc, hlen, hshift]
  change convertName fuel (done.length + l.length + 1)
    ((done ++ l ++ y :: rest).set (done.length + l.length) '.'.toUInt8) = _
  rw [hset, hnext]

theorem convertName_labels
    {ls : List Bytes}
    (hls : ∀ l ∈ ls, (1 ≤ l.length ∧ l.length < 256) ∧ (0 : UInt8) ∉ l)
    {fuel : Nat} (hfuel : ls.length < fuel) {done : Bytes}
    (hdone : (0 : UInt8) ∉ done) (pad : Bytes) :
    convertName fuel done.length (done ++ labelBytes ls ++ 0 :: pad) =
      .ok ((done ++ dottedLabels ls).length, done ++ dottedLabels ls ++ 0 :: pad) := by
  induction ls generalizing fuel done with
  | nil =>
      obtain ⟨fuel, rfl⟩ := Nat.exists_eq_add_of_lt hfuel
      have hstrlen : cString (done ++ labelBytes [] ++ 0 :: pad) = done := by
        rw [cString_append_zero, labelBytes, List.flatMap_nil, List.append_nil,
          cString_eq_self hdone]
      rw [convertName, hstrlen, if_neg (by simp), if_pos (Nat.le_refl _)]
      simp [labelBytes, dottedLabels]
  | cons l ls ih =>
      cases fuel with
      | zero =>
          cases hfuel
      | succ fuel =>
          obtain ⟨⟨hl, hchars⟩, hls⟩ := List.forall_mem_cons.mp hls
          have hname : done ++ labelBytes (l :: ls) ++ 0 :: pad =
              done ++ UInt8.ofNat l.length :: l ++ (labelBytes ls ++ 0 :: pad) := by
            simp [labelBytes]
          have hnext : (0 : UInt8) ∉ done ++ l ++ ['.'.toUInt8] := by
            rw [List.mem_append, List.mem_append]
            rintro ((h | h) | h)
            · exact hdone h
            · exact hchars h
            · exact absurd h (by decide)
          rw [hname, convertName_label hdone hl (by simp), ← List.append_assoc,
            ih hls (Nat.lt_of_succ_lt_succ hfuel) hnext]
          simp [dottedLabels]

/-- A name of hostname characters is read, and its bytes are counted. -/
theorem readName_wireName
    {mem : Mem} {p : Nat} (h : HostName) (hmem : Holds mem p (wireName h.labels))
    (hbuf : p + (wireName h.labels).length ≤ clientBufSize) :
    ∃ name, readName mem p = .ok (name, (wireName h.labels).length) ∧ cString name = h.text := by
  have hlen := h.length_labelBytes_le
  have hcount : h.labels.length < 257 := by
    have := lt_length_wireName h.labels
    rw [wireName_eq, List.length_append, List.length_singleton] at this
    omega
  have hfuel : (labelBytes h.labels).length < readNameFuel := by
    rw [readNameFuel]
    omega
  rw [wireName_eq] at hmem ⊢
  rw [wireName_eq, List.length_append, List.length_singleton] at hbuf
  have hroom : ([] : Bytes).length + (labelBytes h.labels).length ≤ 256 := by
    rw [List.length_nil]
    omega
  have hloop := readNameLoop_of_holds (fun c hc => h.mem_labelBytes hc) hfuel hmem
    (Nat.lt_of_succ_le hbuf) hroom 1
  rw [List.nil_append] at hloop
  obtain ⟨n, hn⟩ : ∃ n, 256 - (labelBytes h.labels).length = n + 1 :=
    ⟨255 - (labelBytes h.labels).length, by omega⟩
  have hlabels : ∀ l ∈ h.labels, (1 ≤ l.length ∧ l.length < 256) ∧ (0 : UInt8) ∉ l := by
    intro l hl
    obtain ⟨hpos, hle⟩ := h.label_length l hl
    exact ⟨⟨hpos, by omega⟩, (h.label_chars l hl).2⟩
  have hconvert := convertName_labels hlabels hcount List.not_mem_nil (List.replicate n 0)
  rw [List.nil_append, List.nil_append, List.length_nil] at hconvert
  have hdots : dottedLabels h.labels = h.text ++ ['.'.toUInt8] := dottedLabels_eq h.labels_ne_nil
  refine ⟨h.text ++ 0 :: 0 :: List.replicate n 0, ?_, ?_⟩
  · have hset : (dottedLabels h.labels ++ 0 :: List.replicate n 0).set
        ((dottedLabels h.labels).length - 1) 0 = h.text ++ 0 :: 0 :: List.replicate n 0 := by
      rw [hdots, List.length_append, List.length_singleton, Nat.add_sub_cancel]
      simp
    rw [readName, hloop]
    change (if 256 ≤ (labelBytes h.labels).length then _ else _) = _
    rw [if_neg (by omega), hn, List.replicate_succ, hconvert]
    change (if (dottedLabels h.labels).length = 0 then _ else _) = _
    rw [if_neg (by rw [hdots]; simp), hset]
    simp [Nat.add_comm]
  · rw [cString_append_zero, cString_eq_self h.zero_not_mem_text]

end Torrentkino
