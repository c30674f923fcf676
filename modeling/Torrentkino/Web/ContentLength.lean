import Torrentkino.Web.Answer

/-!
# The length of a response with several ranges

A client that keeps the connection open finds the next response behind as many bytes as
the header announces.  `http_206_complex` prints the length before the part with the
additional line end is counted.

**Results.**
* `httpReadComplex_accepted`: the number that is printed, and the parts behind the header.
* `content_length_wrong`: it is never the number of bytes of these parts.
-/

namespace Torrentkino

open Memory CString Decimal

/-- The bytes of a part that are to be sent. -/
def Response.length : Response → Nat
  | .memory sendBuf sendOffset => sendBuf.length - sendOffset
  | .file _ fOffset fStop => fStop + 1 - fOffset

/-- The bytes of some parts. -/
def bodyLength (parts : List Response) : Nat :=
  (parts.map Response.length).sum

theorem length_respSetMemory (text : Bytes) :
    (respSetMemory text).length = (sendBuf text).length :=
  Nat.sub_zero _

theorem length_file (filename : Bytes) (fOffset fStop : Nat) :
    (Response.file filename fOffset fStop).length = fStop + 1 - fOffset := rfl

/-! ## The sum -/

/-- The ranges that are accepted, and the length of their parts. -/
theorem httpRangeComplex_contentLength
    {f : RangeFile} {ranges : List Bytes} {list list' : List Response}
    {contentLength contentLength' : Nat}
    (h : httpRangeComplex f list ranges contentLength = (list', some contentLength')) :
    ∃ parts, list' = list ++ parts ∧
      contentLength' % 2 ^ 64 = (contentLength + bodyLength parts) % 2 ^ 64 := by
  induction ranges generalizing list contentLength with
  | nil =>
      cases h
      exact ⟨[], by simp, by simp [bodyLength]⟩
  | cons range ranges ih =>
      rcases Nat.lt_or_ge respCapacity (list.length + 3) with hfull | hroom
      · rw [httpRangeComplex_full hfull] at h
        cases h
      rw [httpRangeComplex_cons hroom] at h
      cases hrange : httpRangeSimple f.filesize range contentLength with
      | none =>
          rw [hrange] at h
          cases h
      | some p =>
          obtain ⟨fOffset, fStop, contentLength₁⟩ := p
          rw [hrange] at h
          obtain ⟨parts, rfl, hlength⟩ := ih h
          refine ⟨rangeParts f fOffset fStop ++ parts, by rw [List.append_assoc], ?_⟩
          rw [hlength, rangeLength, (httpRangeSimple_eq_some hrange).2]
          simp only [addSize, bodyLength, rangeParts, List.map_append, List.map_cons, List.map_nil,
            List.sum_append, List.sum_cons, List.sum_nil, length_respSetMemory, length_file]
          omega

/-- A response that is not refused: the parts behind the header, and the length that is
printed in it. -/
theorem httpReadComplex_accepted
    {host : Host} {n : TcpNode} {f : RangeFile} {lastmodified keepalive range : Bytes}
    (h : (httpReadComplex host n f lastmodified keepalive range).pipeline ≠ .shutdown) :
    ∃ contentLength parts,
      (httpReadComplex host n f lastmodified keepalive range).response =
        n.response ++ respSetMemory (http206ComplexText host lastmodified contentLength f.boundary
          keepalive) :: parts ∧
      contentLength < 2 ^ 64 ∧ (contentLength + 2) % 2 ^ 64 = bodyLength parts % 2 ^ 64 := by
  rcases Nat.lt_or_ge respCapacity (n.response.length + 2) with hfull | hroom
  · obtain ⟨list, heq⟩ := httpReadComplex_full hfull
    rw [heq] at h
    exact absurd rfl h
  obtain ⟨⟨list, length⟩, hcomplex⟩ : ∃ result, httpRangeComplex f
      (n.response ++ [.fromMemory, .fromMemory]) ((range.take bufOff1).splitOn ','.toUInt8) 0 =
        result := ⟨_, rfl⟩
  cases length with
  | none =>
      rw [httpReadComplex_of_none hroom hcomplex] at h
      exact absurd rfl h
  | some contentLength =>
      obtain ⟨parts, rfl, hlength⟩ := httpRangeComplex_contentLength hcomplex
      rw [httpReadComplex_of_some hroom hcomplex] at h ⊢
      have hmore : n.response.length + 2 + parts.length ≤ respLimit := by
        by_contra hmore
        rw [if_neg hmore] at h
        exact h rfl
      rw [if_pos hmore]
      refine ⟨addSize contentLength (sendBuf (http206BoundaryFinishText f.boundary)).length,
        respSetMemory crlf :: (parts ++ [respSetMemory (http206BoundaryFinishText f.boundary)]),
        rfl, Nat.mod_lt _ (by decide), ?_⟩
      have hcrlf : (sendBuf crlf).length = 2 := rfl
      simp only [addSize, bodyLength, List.map_append, List.map_cons, List.map_nil,
        List.sum_append, List.sum_cons, List.sum_nil, length_respSetMemory, hcrlf] at hlength ⊢
      omega

/-! ## The header -/

/-- The digits of a text that is cut off. -/
theorem takeWhile_isDigit_take
    {ds : Bytes} (hds : AllDigits ds) (back : Bytes) (m : Nat) :
    (cString ((ds ++ (crlf ++ back)).take m)).takeWhile isDigit = ds.take m := by
  induction ds generalizing m with
  | nil =>
      cases m with
      | zero =>
          rfl
      | succ m =>
          rfl
  | cons c ds ih =>
      obtain ⟨hc, hds⟩ := (allDigits_cons c ds).mp hds
      cases m with
      | zero =>
          rfl
      | succ m =>
          have hne : c ≠ 0 := by
            rintro rfl
            cases hc
          rw [List.cons_append, List.take_succ_cons, cString_cons_of_ne _ hne,
            List.takeWhile_cons_of_pos hc, ih hds, List.take_succ_cons]

/-- A number near the start of a text can be read from its buffer. -/
theorem sendBuf_number_inj
    {front back back' : Bytes} {a b : Nat} (hfront : (0 : UInt8) ∉ front)
    (hlen : front.length + 21 ≤ bufOff1) (ha : a < 10 ^ 20)
    (h : sendBuf (front ++ (decimal a ++ (crlf ++ back))) =
      sendBuf (front ++ (decimal b ++ (crlf ++ back')))) :
    a = b := by
  obtain ⟨m, hm⟩ : ∃ m, bufOff1 = front.length + m := Nat.exists_eq_add_of_le (by omega)
  rw [sendBuf, sendBuf, hm, List.take_length_add_append, List.take_length_add_append,
    cString_append_of_not_mem hfront, cString_append_of_not_mem hfront] at h
  have hdigits := congrArg (List.takeWhile isDigit) (List.append_cancel_left h)
  rw [takeWhile_isDigit_take (allDigits_decimal a), takeWhile_isDigit_take (allDigits_decimal b)]
    at hdigits
  have ha_le : (decimal a).length ≤ 20 := decimal_length_le (by decide) ha
  have hlen_eq := congrArg List.length hdigits
  rw [List.length_take, List.length_take] at hlen_eq
  rw [List.take_of_length_le (by omega), List.take_of_length_le (by omega)] at hdigits
  rw [← decVal_decimal a, hdigits, decVal_decimal]

/-- The text has no zero byte and at most so many bytes. -/
def Printable (n : Nat) (text : Bytes) : Prop :=
  (0 : UInt8) ∉ text ∧ text.length ≤ n

instance (n : Nat) (text : Bytes) : Decidable (Printable n text) :=
  inferInstanceAs (Decidable (_ ∧ _))

theorem Printable.append
    {m n : Nat} {u w : Bytes} (hu : Printable m u) (hw : Printable n w) :
    Printable (m + n) (u ++ w) := by
  refine ⟨?_, ?_⟩
  · rw [List.mem_append, not_or]
    exact ⟨hu.1, hw.1⟩
  · rw [List.length_append]
    exact Nat.add_le_add hu.2 hw.2

theorem printable_getD
    {names : List String} {n : Nat} (hnames : ∀ name ∈ names, Printable n (cstr name)) (i : Nat) :
    Printable n (cstr (names.getD i "")) := by
  rw [List.getD_eq_getElem?_getD]
  cases hname : names[i]? with
  | none =>
      exact ⟨List.not_mem_nil, Nat.zero_le n⟩
  | some name =>
      exact hnames name (List.mem_of_getElem? hname)

theorem printable_twoDigits {n : Nat} (hn : n < 2000) : Printable 2 (twoDigits n) := by
  have hdigit : ∀ d < 200, digit d ≠ 0 := by
    decide +kernel
  refine ⟨?_, Nat.le_refl 2⟩
  simp only [twoDigits, List.mem_cons, List.not_mem_nil, or_false, not_or]
  exact ⟨(hdigit (n / 10) (by omega)).symm, (hdigit (n % 10) (by omega)).symm⟩

theorem printable_decimalInt {i : Int} (hi : i.natAbs < 10 ^ 10) :
    Printable 11 (decimalInt i) := by
  have hlen : (decimal i.natAbs).length ≤ 10 := decimal_length_le (by decide) hi
  rw [decimalInt]
  split
  · refine ⟨?_, by rw [List.length_cons]; omega⟩
    rw [List.mem_cons, not_or]
    exact ⟨by decide, zero_not_mem_decimal _⟩
  · exact ⟨zero_not_mem_decimal _, by omega⟩

theorem day_civilOfDays_lt (days : Int) : (civilOfDays days).day < 2000 := by
  have hera : ((days + 719468).fmod 146097).toNat < 146097 := by
    have h := Int.fmod_lt_of_pos (days + 719468) (b := 146097) (by decide)
    omega
  simp only [civilOfDays]
  generalize ((days + 719468).fmod 146097).toNat = dayOfEra at hera
  omega

theorem printable_strGmttime (timestamp : Int) : Printable 64 (strGmttime timestamp) := by
  rw [strGmttime]
  split
  · decide +kernel
  rename_i hyear
  have hnames : (∀ name ∈ dayNames, Printable 3 (cstr name)) ∧
      ∀ name ∈ monthNames, Printable 3 (cstr name) := by
    decide +kernel
  have hyear' : (civilOfDays (timestamp.fdiv 86400)).year.natAbs < 10 ^ 10 := by
    omega
  have hseconds : (timestamp.fmod 86400).toNat < 86400 := by
    have h := Int.fmod_lt_of_pos timestamp (b := 86400) (by decide)
    omega
  have htext := ((((((((((((printable_getD hnames.1
      ((timestamp.fdiv 86400 + 4).fmod 7).toNat).append
    (show Printable 2 (cstr ", ") by decide +kernel)).append
    (printable_twoDigits (day_civilOfDays_lt (timestamp.fdiv 86400)))).append
    (show Printable 1 (cstr " ") by decide +kernel)).append
    (printable_getD hnames.2 (civilOfDays (timestamp.fdiv 86400)).month)).append
    (show Printable 1 (cstr " ") by decide +kernel)).append
    (printable_decimalInt hyear')).append
    (show Printable 1 (cstr " ") by decide +kernel)).append
    (printable_twoDigits (show (timestamp.fmod 86400).toNat / 3600 < 2000 by omega))).append
    (show Printable 1 (cstr ":") by decide +kernel)).append
    (printable_twoDigits (show (timestamp.fmod 86400).toNat / 60 % 60 < 2000 by omega))).append
    (show Printable 1 (cstr ":") by decide +kernel)).append
    (printable_twoDigits (show (timestamp.fmod 86400).toNat % 60 < 2000 by omega)) |>.append
    (show Printable 4 (cstr " GMT") by decide +kernel)
  exact ⟨htext.1, htext.2.trans (by decide)⟩

theorem printable_strGMTtime (now : Int) : Printable 64 (strGMTtime now) := by
  rw [strGMTtime]
  split
  · exact printable_strGmttime now
  · decide +kernel

theorem mem_randomChars {size : Nat} {rnd : Random} {c : UInt8}
    (hc : c ∈ (randomChars size rnd).1) : c ≠ 0 := by
  induction size generalizing rnd with
  | zero =>
      cases hc
  | succ size ih =>
      rcases List.mem_cons.mp hc with rfl | hc
      · have hall : ∀ i < alphanum.length, alphanum.getD i 0 ≠ 0 := by
          decide +kernel
        exact hall _ (Nat.mod_lt _ (by decide))
      · exact ih hc

theorem length_randomChars (size : Nat) (rnd : Random) : (randomChars size rnd).1.length = size := by
  induction size generalizing rnd with
  | zero =>
      rfl
  | succ size ih =>
      exact congrArg (· + 1) (ih _)

/-- The text in front of the content length. -/
def complexFront (host : Host) (boundary : Bytes) : Bytes :=
  cstr "HTTP/1.1 206 Partial Content\r\n" ++
  cstr "Server: " ++ logName ++ crlf ++
  cstr "Date: " ++ strGMTtime host.now ++ crlf ++
  cstr "Content-Type: multipart/byteranges; boundary=" ++ boundary ++ crlf ++
  cstr "Content-Length: "

theorem http206ComplexText_eq
    (host : Host) (lastmodified : Bytes) (contentLength : Nat) (boundary keepalive : Bytes) :
    http206ComplexText host lastmodified contentLength boundary keepalive =
      complexFront host boundary ++ (decimal contentLength ++ (crlf ++
        (cstr "Last-Modified: " ++ lastmodified ++ crlf ++ keepalive ++ crlf))) := by
  have hassoc : ∀ a b c d e f g h : Bytes,
      a ++ b ++ c ++ d ++ e ++ f ++ g ++ h = a ++ (b ++ (c ++ (d ++ e ++ f ++ g ++ h))) := by
    intros
    simp only [List.append_assoc]
  unfold http206ComplexText complexFront
  exact hassoc _ _ _ _ _ _ _ _

theorem complexFront_bounds (host : Host) (rnd : Random) :
    (0 : UInt8) ∉ complexFront host (httpRandom 12 rnd).1 ∧
      (complexFront host (httpRandom 12 rnd).1).length + 21 ≤ bufOff1 := by
  have hboundary : (0 : UInt8) ∉ (httpRandom 12 rnd).1 :=
    fun hc => mem_randomChars (List.mem_of_mem_take hc) rfl
  have hlen : (httpRandom 12 rnd).1.length ≤ 12 := by
    rw [httpRandom, List.length_take, length_randomChars]
    omega
  have hdate := printable_strGMTtime host.now
  constructor
  · have htexts : (0 : UInt8) ∉ cstr "HTTP/1.1 206 Partial Content\r\n" ∧
        (0 : UInt8) ∉ cstr "Server: " ∧ (0 : UInt8) ∉ logName ∧ (0 : UInt8) ∉ crlf ∧
        (0 : UInt8) ∉ cstr "Date: " ∧
        (0 : UInt8) ∉ cstr "Content-Type: multipart/byteranges; boundary=" ∧
        (0 : UInt8) ∉ cstr "Content-Length: " := by
      decide +kernel
    simp only [complexFront, List.mem_append, not_or]
    exact ⟨⟨⟨⟨⟨⟨⟨⟨⟨⟨htexts.1, htexts.2.1⟩, htexts.2.2.1⟩, htexts.2.2.2.1⟩, htexts.2.2.2.2.1⟩,
      hdate.1⟩, htexts.2.2.2.1⟩, htexts.2.2.2.2.2.1⟩, hboundary⟩,
      htexts.2.2.2.1⟩, htexts.2.2.2.2.2.2⟩
  · have htexts : (cstr "HTTP/1.1 206 Partial Content\r\n").length = 30 ∧
        (cstr "Server: ").length = 8 ∧ logName.length = 10 ∧ crlf.length = 2 ∧
        (cstr "Date: ").length = 6 ∧
        (cstr "Content-Type: multipart/byteranges; boundary=").length = 45 ∧
        (cstr "Content-Length: ").length = 16 := by
      decide +kernel
    simp only [complexFront, List.length_append, htexts, bufOff1]
    have := hdate.2
    omega

/-! ## Requests -/

/-- A request for several ranges of a file that is not refused. -/
structure RangesRequest (host : Host) where
  n : TcpNode
  filename : Bytes
  filesize : Nat
  mimetype : Bytes
  lastmodified : Bytes
  keepalive : Bytes
  range : Bytes
  rnd : Random
  multipart : httpRangeMultipart range = true
  accepted : (httpReadComplex host n ⟨filename, filesize, mimetype, (httpRandom 12 rnd).1⟩
    lastmodified keepalive range).pipeline ≠ .shutdown

/-- The number in the header is that of the bytes of all parts behind it. -/
def RangesRequest.AnnouncesBody {host : Host} (q : RangesRequest host) : Prop :=
  ∃ parts, (httpReadComplex host q.n
      ⟨q.filename, q.filesize, q.mimetype, (httpRandom 12 q.rnd).1⟩ q.lastmodified q.keepalive
      q.range).response =
    q.n.response ++ respSetMemory (http206ComplexText host q.lastmodified (bodyLength parts)
      (httpRandom 12 q.rnd).1 q.keepalive) :: parts

theorem RangesRequest.not_announcesBody {host : Host} (q : RangesRequest host) :
    ¬ q.AnnouncesBody := by
  rintro ⟨parts, hresponse⟩
  obtain ⟨contentLength, parts', hresponse', hlt, hmod⟩ := httpReadComplex_accepted q.accepted
  rw [hresponse'] at hresponse
  obtain ⟨hheader, rfl⟩ := List.cons.inj (List.append_cancel_left hresponse)
  simp only [respSetMemory, Response.memory.injEq, and_true, http206ComplexText_eq] at hheader
  obtain ⟨hfront, hlen⟩ := complexFront_bounds host q.rnd
  have hsame := sendBuf_number_inj hfront hlen (hlt.trans (by norm_num)) hheader
  omega

/-- No header with several ranges has the length of what follows it: the part with the
additional line end is not counted. -/
theorem content_length_wrong {host : Host} (q : RangesRequest host) : ¬ q.AnnouncesBody :=
  q.not_announcesBody

/-- A web server with one file of ten bytes. -/
def tenHost : Host where
  home := cstr "/www"
  file := cstr "index.html"
  files := fun name =>
    if name = cstr "/www/a" then some ⟨.regular, cstr "0123456789", 0, by decide⟩ else none
  magic := fun _ => none
  now := 1297369539

/-- The request for its first and its last byte. -/
def firstAndLast : RangesRequest tenHost where
  n := nodePut
  filename := cstr "/www/a"
  filesize := 10
  mimetype := cstr "text/plain"
  lastmodified := cstr "Thu, 10 Feb 2011 20:25:39 GMT"
  keepalive := []
  range := cstr "0-0,9-9"
  rnd := ⟨fun _ => 0, fun _ => 0⟩
  multipart := by decide +kernel
  accepted := by decide +kernel

/-- The header of the response to it announces two bytes too few. -/
theorem content_length_fails :
    ¬ ∀ (host : Host) (q : RangesRequest host), q.AnnouncesBody :=
  fun h => firstAndLast.not_announcesBody (h tenHost firstAndLast)

end Torrentkino
