import Torrentkino.Web.SendTcp

/-!
# The answer to a request

A request is answered in the same way on every connection whose queue has room
for the response: what it adds to the queue is what a new connection gets for
it.  Only when the queue runs full a response is cut short, skipped or refused.

**Results.**
* `serves_httpAnswer`: the answer that a request gets on its own is what it adds
  to a queue with enough room.
-/

namespace Torrentkino

open Memory CString

/-- The parts that a queue can hold. -/
def respCapacity : Nat := respLimit + 1

/-- On every connection whose queue has room for them, the function adds these
parts to the queue and changes nothing else. -/
def Queues (host : Host) (g : TcpNode → TcpNode) (parts : List Response) : Prop :=
  (∀ r ∈ parts, r.Sendable host) ∧
    ∀ n : TcpNode, n.response.length + parts.length ≤ respCapacity →
      g n = { n with response := n.response ++ parts }

/-- The function refuses the request on a new connection, or it adds some parts
to all queues. -/
def Definite (host : Host) (g : TcpNode → TcpNode) : Prop :=
  (∀ n, n.response = [] → (g n).pipeline = .shutdown) ∨
    ∃ parts, parts.length ≤ respCapacity ∧ Queues host g parts

section Answer

variable {host : Host}

/-! ## Responses without ranges -/

theorem sendable_memory (text : Bytes) : (respSetMemory text).Sendable host :=
  trivial

theorem queues_httpPart
    {r : Response} (h : r.Sendable host) :
    Queues host (httpPart · r) [r] := by
  refine ⟨by simpa using h, ?_⟩
  intro n hroom
  have hle : n.response.length ≤ respLimit := Nat.le_of_succ_le_succ hroom
  simp only [httpPart, respPut_of_le r hle]

/-- Two functions that add parts, one after the other. -/
theorem Queues.comp
    {g g' : TcpNode → TcpNode} {parts parts' : List Response}
    (h : Queues host g parts) (h' : Queues host g' parts') :
    Queues host (fun n => g' (g n)) (parts ++ parts') := by
  constructor
  · intro r hr
    rcases List.mem_append.mp hr with hr | hr
    · exact h.1 r hr
    · exact h'.1 r hr
  · intro n hroom
    rw [List.length_append] at hroom
    dsimp only
    rw [h.2 n (by omega), h'.2 _ (by simpa [Nat.add_assoc] using hroom), List.append_assoc]

theorem queues_id : Queues host (fun n => n) [] := by
  refine ⟨by simp, ?_⟩
  intro n _
  simp

/-- The parts of `http_body`. -/
def bodyParts (host : Host) (filename : Bytes) : List Response :=
  if fileSize host.files filename = 0 then []
  else [.file filename 0 (fileSize host.files filename - 1)]

theorem length_bodyParts_le (host : Host) (filename : Bytes) :
    (bodyParts host filename).length ≤ 1 := by
  rw [bodyParts]
  split <;> simp

theorem queues_httpBody (filename : Bytes) :
    Queues host (httpBody · filename (fileSize host.files filename)) (bodyParts host filename) := by
  rw [bodyParts]
  rcases eq_or_ne (fileSize host.files filename) 0 with hzero | hpos
  · simp only [httpBody, hzero, if_true]
    exact queues_id
  · obtain ⟨stat, hstat, hsize⟩ := exists_of_fileSize_pos (Nat.pos_of_ne_zero hpos)
    simp only [httpBody, if_neg hpos]
    exact queues_httpPart ⟨stat, hstat, Nat.zero_le _, by omega⟩

theorem definite_http200 (lastmodified filename keepalive mimetype : Bytes) :
    Definite host fun n =>
      httpBody (http200 host n lastmodified (fileSize host.files filename) keepalive mimetype)
        filename (fileSize host.files filename) := by
  refine .inr ⟨_, ?_, (queues_httpPart (sendable_memory _)).comp (queues_httpBody filename)⟩
  have := length_bodyParts_le host filename
  simp only [List.singleton_append, List.length_cons, respCapacity, respLimit]
  omega

theorem definite_httpPart (text : Bytes) :
    Definite host (httpPart · (respSetMemory text)) :=
  .inr ⟨_, by simp [respCapacity], queues_httpPart (sendable_memory text)⟩

/-! ## Ranges -/

/-- Valid ranges lie inside the file, and add their size to the content length. -/
theorem httpRangeSimple_eq_some
    {filesize contentLength fOffset fStop contentLength' : Nat} {range : Bytes}
    (h : httpRangeSimple filesize range contentLength = some (fOffset, fStop, contentLength')) :
    (fOffset ≤ fStop ∧ fStop < filesize) ∧
      contentLength' = addSize contentLength (fStop + 1 - fOffset) := by
  rw [httpRangeSimple] at h
  split at h
  · cases h
  split at h
  · cases h
  split at h
  · split at h
    · cases h
    split at h
    · cases h
    simp only [Option.some.injEq, Prod.mk.injEq] at h
    obtain ⟨rfl, rfl, rfl⟩ := h
    refine ⟨?_, rfl⟩
    split <;> omega
  · cases h

theorem sendable_range
    {filename range : Bytes} {contentLength fOffset fStop contentLength' : Nat}
    (h : httpRangeSimple (fileSize host.files filename) range contentLength =
      some (fOffset, fStop, contentLength')) :
    (Response.file filename fOffset fStop).Sendable host := by
  obtain ⟨hle, hlt⟩ := (httpRangeSimple_eq_some h).1
  obtain ⟨stat, hstat, hsize⟩ := exists_of_fileSize_pos (Nat.zero_lt_of_lt hlt)
  exact ⟨stat, hstat, hle, hsize ▸ hlt⟩

/-- The queue with two parts that are filled after they were put there. -/
theorem set_two (list : List Response) (a b a' b' : Response) :
    ((list ++ [a, b]).set (list.length + 1) b').set list.length a' = list ++ [a', b'] := by
  simp

theorem definite_httpReadSimple
    (filename lastmodified keepalive mimetype range : Bytes) :
    Definite host fun n => httpReadSimple host n filename lastmodified
      (fileSize host.files filename) keepalive mimetype range := by
  cases hrange : httpRangeSimple (fileSize host.files filename) range 0 with
  | none =>
      left
      intro n hn
      simp only [httpReadSimple, hrange, hn]
      rfl
  | some p =>
      obtain ⟨fOffset, fStop, contentLength⟩ := p
      refine .inr ⟨[respSetMemory (http206SimpleText host fOffset fStop lastmodified
          (fileSize host.files filename) contentLength keepalive mimetype),
        .file filename fOffset fStop], by simp [respCapacity, respLimit], ?_, ?_⟩
      · simpa using ⟨sendable_memory _, sendable_range hrange⟩
      · intro n hroom
        simp only [respCapacity, List.length_cons, List.length_nil] at hroom
        simp only [httpReadSimple, hrange]
        rw [respPut_of_le _ (by omega)]
        dsimp only
        rw [respPut_of_le _ (by simp; omega)]
        simp only [List.append_assoc, List.singleton_append, set_two]

/-- The parts for one of several ranges. -/
def rangeParts (f : RangeFile) (fOffset fStop : Nat) : List Response :=
  [respSetMemory (http206BoundaryHeadText fOffset fStop f.filesize f.mimetype f.boundary),
    .file f.filename fOffset fStop, respSetMemory crlf]

/-- The content length behind one of several ranges. -/
def rangeLength (f : RangeFile) (fOffset fStop contentLength : Nat) : Nat :=
  addSize
    (addSize contentLength
      (sendBuf (http206BoundaryHeadText fOffset fStop f.filesize f.mimetype f.boundary)).length)
    (sendBuf crlf).length

/-- The parts of a range that is not completed. -/
def unfilledParts : List Response :=
  [.fromMemory, .fromFile, .fromMemory]

/-- Without room for three more parts `resp_put` fails at one of them, and leaves the parts in
front of it. -/
theorem respPut_three_of_lt
    {β : Type} {list : List Response} (hroom : respCapacity < list.length + 3)
    (refused filled : List Response → β) :
    (match respPut list .fromMemory with
      | none => refused list
      | some list =>
      match respPut list .fromFile with
      | none => refused list
      | some list =>
      match respPut list .fromMemory with
      | none => refused list
      | some list => filled list) =
      refused (list ++ unfilledParts.take (respCapacity - list.length)) := by
  simp only [respCapacity] at hroom ⊢
  by_cases h₁ : respLimit < list.length
  · rw [respPut_of_lt _ h₁, Nat.sub_eq_zero_of_le h₁, List.take_zero, List.append_nil]
  rw [respPut_of_le _ (Nat.not_lt.mp h₁)]
  dsimp only
  by_cases h₂ : respLimit < list.length + 1
  · rw [respPut_of_lt _ (by simpa using h₂), show respLimit + 1 - list.length = 1 by omega]
    rfl
  rw [respPut_of_le _ (by simp; omega)]
  dsimp only
  rw [respPut_of_lt _ (by simp; omega), show respLimit + 1 - list.length = 2 by omega]
  simp [unfilledParts]

theorem respPut_three_of_le
    {β : Type} {list : List Response} (hroom : list.length + 3 ≤ respCapacity)
    (refused filled : List Response → β) :
    (match respPut list .fromMemory with
      | none => refused list
      | some list =>
      match respPut list .fromFile with
      | none => refused list
      | some list =>
      match respPut list .fromMemory with
      | none => refused list
      | some list => filled list) =
      filled (list ++ unfilledParts) := by
  simp only [respCapacity] at hroom
  rw [respPut_of_le _ (by omega)]
  dsimp only
  rw [respPut_of_le _ (by simp; omega)]
  dsimp only
  rw [respPut_of_le _ (by simp; omega)]
  simp [unfilledParts]

/-- One round of `http_range_complex`. -/
theorem httpRangeComplex_cons
    {f : RangeFile} {list : List Response} (hroom : list.length + 3 ≤ respCapacity)
    (range : Bytes) (ranges : List Bytes) (contentLength : Nat) :
    httpRangeComplex f list (range :: ranges) contentLength =
      match httpRangeSimple f.filesize range contentLength with
      | none => (list ++ [.fromMemory, .fromFile, .fromMemory], none)
      | some (fOffset, fStop, contentLength) =>
          httpRangeComplex f (list ++ rangeParts f fOffset fStop) ranges
            (rangeLength f fOffset fStop contentLength) := by
  rw [httpRangeComplex]
  refine (respPut_three_of_le hroom (Prod.mk · none) _).trans ?_
  cases httpRangeSimple f.filesize range contentLength with
  | none =>
      rfl
  | some p =>
      simp [unfilledParts, rangeParts, rangeLength]

/-- Without room for three more parts `http_range_complex` fails. -/
theorem httpRangeComplex_full
    {f : RangeFile} {list : List Response} (hroom : respCapacity < list.length + 3)
    (range : Bytes) (ranges : List Bytes) (contentLength : Nat) :
    httpRangeComplex f list (range :: ranges) contentLength =
      (list ++ unfilledParts.take (respCapacity - list.length), none) := by
  rw [httpRangeComplex]
  exact respPut_three_of_lt hroom (Prod.mk · none) _

/-- What `http_range_complex` adds to one queue it adds to every queue with
room for it. -/
theorem httpRangeComplex_queues
    {f : RangeFile} (hsize : f.filesize = fileSize host.files f.filename)
    {ranges : List Bytes} {list list' : List Response} {contentLength contentLength' : Nat}
    (hlist : list.length ≤ respCapacity)
    (h : httpRangeComplex f list ranges contentLength = (list', some contentLength')) :
    ∃ parts, list' = list ++ parts ∧ list'.length ≤ respCapacity ∧
      (∀ r ∈ parts, r.Sendable host) ∧
      ∀ q : List Response, q.length + parts.length ≤ respCapacity →
        httpRangeComplex f q ranges contentLength = (q ++ parts, some contentLength') := by
  induction ranges generalizing list contentLength with
  | nil =>
      cases h
      exact ⟨[], by simp, hlist, by simp, fun q _ => by simp [httpRangeComplex]⟩
  | cons range ranges ih =>
      rcases Nat.lt_or_ge respCapacity (list.length + 3) with hfull | hroom
      · rw [httpRangeComplex_full hfull] at h
        cases h
      · rw [httpRangeComplex_cons hroom] at h
        cases hrange : httpRangeSimple f.filesize range contentLength with
        | none =>
            rw [hrange] at h
            cases h
        | some p =>
            obtain ⟨fOffset, fStop, contentLength₁⟩ := p
            rw [hrange] at h
            have hthree : (rangeParts f fOffset fStop).length = 3 := rfl
            obtain ⟨parts, rfl, hlen, hsendable, hqueues⟩ := ih (by simpa [hthree] using hroom) h
            refine ⟨rangeParts f fOffset fStop ++ parts, by simp, hlen, ?_, ?_⟩
            · rw [hsize] at hrange
              intro r hr
              rcases List.mem_append.mp hr with hr | hr
              · simp only [rangeParts, List.mem_cons, List.not_mem_nil, or_false] at hr
                rcases hr with rfl | rfl | rfl
                · exact sendable_memory _
                · exact sendable_range hrange
                · exact sendable_memory _
              · exact hsendable r hr
            · intro q hq
              rw [List.length_append, hthree] at hq
              rw [httpRangeComplex_cons (by omega), hrange]
              dsimp only
              rw [hqueues _ (by rw [List.length_append, hthree]; omega), List.append_assoc]

/-- The queue of a multipart response, once everything is filled. -/
theorem set_multipart (list parts : List Response) (a b c a' b' c' : Response) :
    (((list ++ [a, b] ++ parts ++ [c]).set (list ++ [a, b] ++ parts).length c').set
      list.length a').set (list.length + 1) b' = list ++ ([a', b'] ++ parts ++ [c']) := by
  simp

/-- The parts of a multipart response with these ranges. -/
def multipartParts (host : Host) (f : RangeFile) (lastmodified keepalive : Bytes)
    (contentLength : Nat) (parts : List Response) : List Response :=
  let finish := http206BoundaryFinishText f.boundary
  [respSetMemory (http206ComplexText host lastmodified
      (addSize contentLength (sendBuf finish).length) f.boundary keepalive),
    respSetMemory crlf] ++ parts ++ [respSetMemory finish]

section Complex

variable {n : TcpNode} {f : RangeFile} {lastmodified keepalive range : Bytes}
  {list parts : List Response} {contentLength : Nat}

/-- Without room for the two parts of the header the request is refused. -/
theorem httpReadComplex_full (hfull : respCapacity < n.response.length + 2) :
    ∃ list, httpReadComplex host n f lastmodified keepalive range =
      httpRefuse { n with response := list } := by
  simp only [respCapacity] at hfull
  unfold httpReadComplex
  by_cases h : respLimit < n.response.length
  · rw [respPut_of_lt _ h]
    exact ⟨_, rfl⟩
  rw [respPut_of_le _ (Nat.not_lt.mp h)]
  dsimp only
  rw [respPut_of_lt _ (by simp; omega)]
  exact ⟨_, rfl⟩

/-- A range that is not accepted refuses the request. -/
theorem httpReadComplex_of_none
    (hroom : n.response.length + 2 ≤ respCapacity)
    (h : httpRangeComplex f (n.response ++ [.fromMemory, .fromMemory])
      ((range.take bufOff1).splitOn ','.toUInt8) 0 = (list, none)) :
    httpReadComplex host n f lastmodified keepalive range =
      httpRefuse { n with response := list } := by
  simp only [respCapacity] at hroom
  unfold httpReadComplex
  rw [respPut_of_le _ (by omega)]
  dsimp only
  rw [respPut_of_le _ (by simp; omega)]
  dsimp only
  rw [List.append_assoc, List.singleton_append, h]

/-- Behind the parts of the ranges there has to be room for one more. -/
theorem httpReadComplex_of_some
    (hroom : n.response.length + 2 ≤ respCapacity)
    (h : httpRangeComplex f (n.response ++ [.fromMemory, .fromMemory])
      ((range.take bufOff1).splitOn ','.toUInt8) 0 =
        (n.response ++ [.fromMemory, .fromMemory] ++ parts, some contentLength)) :
    httpReadComplex host n f lastmodified keepalive range =
      if n.response.length + 2 + parts.length ≤ respLimit then
        { n with
          response := n.response ++
            multipartParts host f lastmodified keepalive contentLength parts }
      else httpRefuse { n with response := n.response ++ [.fromMemory, .fromMemory] ++ parts } := by
  simp only [respCapacity] at hroom
  have hlen : (n.response ++ [Response.fromMemory, .fromMemory] ++ parts).length =
      n.response.length + 2 + parts.length := by
    rw [List.length_append, List.length_append]
    rfl
  unfold httpReadComplex
  rw [respPut_of_le _ (by omega)]
  dsimp only
  rw [respPut_of_le _ (by simp; omega)]
  dsimp only
  rw [List.append_assoc, List.singleton_append, h]
  dsimp only
  by_cases hmore : n.response.length + 2 + parts.length ≤ respLimit
  · rw [respPut_of_le _ (by rw [hlen]; exact hmore), if_pos hmore]
    dsimp only
    rw [set_multipart]
    rfl
  · rw [respPut_of_lt _ (by rw [hlen]; exact Nat.not_le.mp hmore), if_neg hmore]

end Complex

theorem queues_httpReadComplex
    {f : RangeFile} {lastmodified keepalive range : Bytes} {contentLength : Nat}
    {parts : List Response}
    (hsendable : ∀ r ∈ parts, r.Sendable host)
    (hqueues : ∀ q : List Response, q.length + parts.length ≤ respCapacity →
      httpRangeComplex f q ((range.take bufOff1).splitOn ','.toUInt8) 0 =
        (q ++ parts, some contentLength)) :
    Queues host (httpReadComplex host · f lastmodified keepalive range)
      (multipartParts host f lastmodified keepalive contentLength parts) := by
  constructor
  · intro r hr
    simp only [multipartParts, List.mem_append, List.mem_cons, List.not_mem_nil, or_false] at hr
    rcases hr with ((rfl | rfl) | hr) | rfl
    · exact sendable_memory _
    · exact sendable_memory _
    · exact hsendable r hr
    · exact sendable_memory _
  · intro n hroom
    simp only [multipartParts, respCapacity, List.length_append, List.length_cons,
      List.length_nil] at hroom
    have hranges := hqueues (n.response ++ [.fromMemory, .fromMemory])
      (by simp [respCapacity]; omega)
    dsimp only
    rw [httpReadComplex_of_some (by simp only [respCapacity]; omega) hranges, if_pos (by omega)]

theorem definite_httpReadComplex
    {f : RangeFile} (hsize : f.filesize = fileSize host.files f.filename)
    (lastmodified keepalive range : Bytes) :
    Definite host (httpReadComplex host · f lastmodified keepalive range) := by
  have hput : ∀ r, respPut [] r = some [r] := fun r => respPut_of_le r (Nat.zero_le _)
  have hput' : ∀ r r', respPut [r] r' = some [r, r'] :=
    fun r r' => respPut_of_le r' (by simp [respLimit])
  -- The ranges are judged behind the two parts of the header.
  cases hcomplex : httpRangeComplex f [.fromMemory, .fromMemory]
    ((range.take bufOff1).splitOn ','.toUInt8) 0 with
  | mk list result =>
      cases result with
      | none =>
          left
          intro n hn
          simp only [httpReadComplex, hn, hput, hput', hcomplex]
          rfl
      | some contentLength =>
          obtain ⟨parts, rfl, -, hsendable, hqueues⟩ :=
            httpRangeComplex_queues hsize (by decide) hcomplex
          rcases Nat.lt_or_ge respLimit (2 + parts.length) with hfull | hroom
          · left
            intro n hn
            have hput'' : respPut ([.fromMemory, .fromMemory] ++ parts) .fromMemory = none :=
              respPut_of_lt _ (by
                simp only [List.length_append, List.length_cons, List.length_nil]
                omega)
            simp only [httpReadComplex, hn, hput, hput', hcomplex, hput'']
            rfl
          · refine .inr ⟨_, ?_, queues_httpReadComplex hsendable hqueues⟩
            simp only [multipartParts, List.length_append, List.length_cons, List.length_nil,
              respCapacity]
            omega

/-! ## Requests -/

/-- The response for a file depends on the connection through its queue
only. -/
theorem httpReadFile_definite
    (srv : Server) (head : Option (Hash Bytes)) (filename keepalive : Bytes) :
    ∃ srv' g, (∀ n, httpReadFile host srv n head filename keepalive = (srv', g n)) ∧
      Definite host g := by
  have hmime : ∃ mime : Bytes × Hash Bytes,
      mimeFind host.files host.magic srv.mime filename = mime := ⟨_, rfl⟩
  obtain ⟨mime, hmime⟩ := hmime
  cases hmodified : httpResourceModified head (strGmttime (fileMod host.files filename)) with
  | false =>
      refine ⟨{ srv with mime := mime.2 }, _, fun n => ?_,
        definite_httpPart (http304Text host keepalive)⟩
      simp only [httpReadFile, hmime, hmodified]
      rfl
  | true =>
      cases hrange : (httpRangeDetected head).bind httpRangePrepare with
      | none =>
          refine ⟨{ srv with mime := mime.2 }, _, fun n => ?_,
            definite_http200 (strGmttime (fileMod host.files filename)) filename keepalive mime.1⟩
          simp only [httpReadFile, hmime, hmodified, hrange]
          rfl
      | some range =>
          cases hmulti : httpRangeMultipart range with
          | true =>
              refine ⟨{ mime := mime.2, random := (httpRandom 12 srv.random).2 }, _, fun n => ?_,
                @definite_httpReadComplex host
                  ⟨filename, fileSize host.files filename, mime.1, (httpRandom 12 srv.random).1⟩
                  rfl (strGmttime (fileMod host.files filename)) keepalive range⟩
              simp only [httpReadFile, hmime, hmodified, hrange, hmulti]
              rfl
          | false =>
              refine ⟨{ srv with mime := mime.2 }, _, fun n => ?_,
                definite_httpReadSimple filename (strGmttime (fileMod host.files filename))
                  keepalive mime.1 range⟩
              simp only [httpReadFile, hmime, hmodified, hrange, hmulti]
              rfl

/-- The response to a request. -/
structure HttpAnswer where
  parts : List Response
  mode : Keepalive
  srv : Server

/-- The response that a request gets on a new connection; `none` when it is
refused. -/
def httpAnswer (host : Host) (srv : Server) (text : Bytes) : Option HttpAnswer :=
  let alone := httpRequest host srv nodePut text
  if alone.2.pipeline = .shutdown then none
  else some ⟨alone.2.response, alone.2.keepalive, alone.1⟩

/-- The request gets this response on every connection with room for it. -/
structure Serves (host : Host) (srv : Server) (text : Bytes) (answer : HttpAnswer) : Prop where
  sendable : ∀ r ∈ answer.parts, r.Sendable host
  length_le : answer.parts.length ≤ respCapacity
  request : ∀ n : TcpNode, n.response.length + answer.parts.length ≤ respCapacity →
    httpRequest host srv n text =
      (answer.srv,
        { n with response := n.response ++ answer.parts, keepalive := answer.mode })
  mode : ∃ fields, httpFields text = some fields ∧
    answer.mode = (httpKeepalive fields.head).1

/-- A response that only adds to the queue, under the mode of the request. -/
theorem serves_of_definite
    {srv : Server} {text : Bytes} {fields : HttpFields} {g : TcpNode → TcpNode} (srv' : Server)
    (hfields : httpFields text = some fields)
    (hrequest : ∀ n, httpRequest host srv n text =
      (srv', g { n with keepalive := (httpKeepalive fields.head).1 }))
    (hg : Definite host g) {answer : HttpAnswer} (h : httpAnswer host srv text = some answer) :
    Serves host srv text answer := by
  rw [httpAnswer, hrequest] at h
  rcases hg with hrefused | ⟨parts, hlen, hsendable, hqueues⟩
  · rw [if_pos (hrefused _ rfl)] at h
    cases h
  · have hnode := hqueues { nodePut with keepalive := (httpKeepalive fields.head).1 } (by
      simpa [nodePut] using hlen)
    rw [hnode] at h
    cases h
    refine ⟨by simpa [nodePut] using hsendable, by simpa [nodePut] using hlen, ?_, fields,
      hfields, rfl⟩
    intro n hroom
    rw [hrequest, hqueues _ (by simpa [nodePut] using hroom)]
    simp [nodePut]

/-- What a request gets on a new connection it gets on every connection with
room for it. -/
theorem serves_httpAnswer
    {srv : Server} {text : Bytes} {answer : HttpAnswer}
    (h : httpAnswer host srv text = some answer) :
    Serves host srv text answer := by
  have hrefused : ∀ n : TcpNode, (httpRequest host srv nodePut text).2 ≠ httpRefuse n := by
    intro n hn
    rw [httpAnswer, hn] at h
    cases h
  cases hfields : httpFields text with
  | none =>
      refine absurd ?_ (hrefused nodePut)
      simp only [httpRequest, hfields]
  | some fields =>
      by_cases hproto : httpProto fields.proto
      · by_cases haction : httpAction fields.cmd
        · cases hresource : httpResource fields.url with
          | none =>
              refine absurd ?_ (hrefused nodePut)
              simp only [httpRequest, hfields, httpRead, hproto, haction, hresource, if_true]
          | some resource =>
              cases hfilename : httpFilename host resource with
              | none =>
                  refine serves_of_definite srv hfields (fun n => ?_)
                    (definite_httpPart (http404Text host (httpKeepalive fields.head).2)) h
                  simp only [httpRequest, hfields, httpRead, hproto, haction, hresource,
                    hfilename, if_true]
                  rfl
              | some filename =>
                  obtain ⟨srv', g, hread, hg⟩ := @httpReadFile_definite host srv fields.head
                    filename (httpKeepalive fields.head).2
                  refine serves_of_definite srv' hfields (fun n => ?_) hg h
                  simp only [httpRequest, hfields, httpRead, hproto, haction, hresource,
                    hfilename, if_true, hread]
        · refine absurd ?_ (hrefused nodePut)
          simp only [httpRequest, hfields, httpRead, hproto, if_true, if_neg haction]
      · refine absurd ?_ (hrefused nodePut)
        simp only [httpRequest, hfields, httpRead, if_neg hproto]

end Answer
end Torrentkino
