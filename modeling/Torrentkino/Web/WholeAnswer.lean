import Mathlib.Data.List.Forall2
import Torrentkino.Web.Tcp

/-!
# Answers in whole

Several requests may arrive at once, and their responses go into one queue with a limited
number of parts.  `http_404`, `http_304`, `http_200` and `http_body` do nothing when the
queue is full, and the requests behind are parsed all the same.

**Results.**
* `httpRequest_cases`: a request without a range is refused, or its parts are put into the
  queue as far as there is room.
* `whole_answers_iff`: the queue holds the whole answers of all requests exactly when a
  request is refused or all parts fit.
-/

namespace Torrentkino

open Memory CString

/-! ## One request -/

/-- The request is not understood, and the connection is closed. -/
def Refused (text : Bytes) : Prop :=
  ∀ fields, httpFields text = some fields → httpProto fields.proto = true →
    httpAction fields.cmd = true → httpResource fields.url = none

/-- The request has no `Range` header. -/
def NoRange (text : Bytes) : Prop :=
  ∀ fields, httpFields text = some fields → httpRangeDetected fields.head = none

instance (text : Bytes) : Decidable (Refused text) :=
  decidable_of_iff
    ((httpFields text).all fun fields =>
      !httpProto fields.proto || !httpAction fields.cmd || (httpResource fields.url).isNone)
    (by simp [Refused, Option.all_eq_true, imp_iff_not_or, or_assoc])

instance (text : Bytes) : Decidable (NoRange text) :=
  decidable_of_iff ((httpFields text).all fun fields => (httpRangeDetected fields.head).isNone)
    (by simp [NoRange, Option.all_eq_true])

/-- The answer to a request for this file: one header, and behind that of a file with
some content the whole of it. -/
inductive FileAnswer (host : Host) (head : Option (Hash Bytes)) (filename : Bytes) :
    List Response → Prop where
  | notModified
      (h : httpResourceModified head (strGmttime (fileMod host.files filename)) = false) :
      FileAnswer host head filename [respSetMemory (http304Text host (httpKeepalive head).2)]
  | ok (mimetype : Bytes)
      (h : httpResourceModified head (strGmttime (fileMod host.files filename)) = true) :
      FileAnswer host head filename
        (respSetMemory (http200Text host (strGmttime (fileMod host.files filename))
          (fileSize host.files filename) (httpKeepalive head).2 mimetype) ::
          bodyParts host filename)

/-- The answer to a request. -/
def WholeAnswer (host : Host) (text : Bytes) (parts : List Response) : Prop :=
  ∃ fields resource, httpFields text = some fields ∧ httpResource fields.url = some resource ∧
    match httpFilename host resource with
    | none => parts = [respSetMemory (http404Text host (httpKeepalive fields.head).2)]
    | some filename => FileAnswer host fields.head filename parts

/-- The number of parts of the answer to a request. -/
def partCount (host : Host) (text : Bytes) : Nat :=
  match httpFields text with
  | none => 0
  | some fields =>
      match (httpResource fields.url).bind (httpFilename host) with
      | none => 1
      | some filename =>
          if httpResourceModified fields.head (strGmttime (fileMod host.files filename)) then
            1 + (bodyParts host filename).length
          else 1

/-- The queue after `resp_put`, also when it is full. -/
def putPart (list : List Response) (r : Response) : List Response :=
  (respPut list r).getD list

/-- The queue after some parts. -/
def putParts (list parts : List Response) : List Response :=
  parts.foldl putPart list

theorem putPart_of_le {list : List Response} (r : Response) (h : list.length < respCapacity) :
    putPart list r = list ++ [r] := by
  rw [putPart, respPut_of_le r (Nat.le_of_lt_succ h)]
  rfl

theorem length_putPart_le {list : List Response} (r : Response) (h : list.length ≤ respCapacity) :
    (putPart list r).length ≤ respCapacity := by
  rcases Nat.lt_or_ge respLimit list.length with hfull | hroom
  · rw [putPart, respPut_of_lt r hfull]
    exact h
  · rw [putPart, respPut_of_le r hroom]
    simp [respCapacity, hroom]

theorem putParts_of_le {list parts : List Response}
    (h : list.length + parts.length ≤ respCapacity) : putParts list parts = list ++ parts := by
  induction parts generalizing list with
  | nil =>
      simp [putParts]
  | cons r parts ih =>
      rw [List.length_cons] at h
      rw [putParts, List.foldl_cons, putPart_of_le r (by omega)]
      change putParts (list ++ [r]) parts = _
      rw [ih (by rw [List.length_append, List.length_singleton]; omega), List.append_assoc]
      rfl

theorem length_putParts_le {list : List Response} (parts : List Response)
    (h : list.length ≤ respCapacity) : (putParts list parts).length ≤ respCapacity :=
  List.foldlRecOn (motive := fun list : List Response => list.length ≤ respCapacity) _ _ h
    fun _ h r _ => length_putPart_le r h

section Request

variable {host : Host}

theorem httpPart_eq (n : TcpNode) (r : Response) :
    httpPart n r = { n with response := putPart n.response r } := by
  rw [httpPart, putPart]
  cases respPut n.response r <;> rfl

theorem httpBody_eq (n : TcpNode) (filename : Bytes) :
    httpBody n filename (fileSize host.files filename) =
      { n with response := putParts n.response (bodyParts host filename) } := by
  rw [httpBody, bodyParts]
  split
  · rfl
  · rw [httpPart_eq]
    rfl

/-- A request for a file without a range. -/
theorem httpReadFile_eq
    (srv : Server) (n : TcpNode) {head : Option (Hash Bytes)} (filename : Bytes)
    (hrange : httpRangeDetected head = none) :
    ∃ srv' parts, FileAnswer host head filename parts ∧
      httpReadFile host srv n head filename (httpKeepalive head).2 =
        (srv', { n with response := putParts n.response parts }) := by
  rw [httpReadFile]
  dsimp only
  split
  · rename_i hmodified
    refine ⟨{ srv with mime := (mimeFind host.files host.magic srv.mime filename).2 }, _,
      .ok (mimeFind host.files host.magic srv.mime filename).1 hmodified, ?_⟩
    rw [hrange]
    simp only [Option.bind_none, http200, httpPart_eq, httpBody_eq]
    rfl
  · rename_i hmodified
    refine ⟨{ srv with mime := (mimeFind host.files host.magic srv.mime filename).2 }, _,
      .notModified (Bool.eq_false_iff.mpr hmodified), ?_⟩
    rw [http304, httpPart_eq]
    rfl

/-- The answer has as many parts as are counted. -/
theorem WholeAnswer.length_eq
    {text : Bytes} {parts : List Response} (h : WholeAnswer host text parts) :
    parts.length = partCount host text := by
  obtain ⟨fields, resource, hfields, hresource, hanswer⟩ := h
  rw [partCount, hfields]
  dsimp only
  rw [hresource, Option.bind_some]
  cases hfilename : httpFilename host resource with
  | none =>
      rw [hfilename] at hanswer
      rw [hanswer]
      rfl
  | some filename =>
      rw [hfilename] at hanswer
      cases hanswer with
      | notModified hmodified =>
          simp [hmodified]
      | ok mimetype hmodified =>
          simp [hmodified, Nat.add_comm]

/-- A request without a range is refused, or its answer is put into the queue. -/
theorem httpRequest_cases
    (srv : Server) (n : TcpNode) {text : Bytes} (hrange : NoRange text) :
    (Refused text ∧ (httpRequest host srv n text).2.pipeline = .shutdown) ∨
    ∃ srv' mode parts, ¬ Refused text ∧ WholeAnswer host text parts ∧
      httpRequest host srv n text =
        (srv', { n with keepalive := mode, response := putParts n.response parts }) := by
  rw [httpRequest]
  cases hfields : httpFields text with
  | none =>
      refine .inl ⟨fun fields h => ?_, rfl⟩
      rw [hfields] at h
      cases h
  | some fields =>
      dsimp only
      rw [httpRead]
      by_cases hproto : httpProto fields.proto
      · rw [if_pos hproto]
        by_cases haction : httpAction fields.cmd
        · rw [if_pos haction]
          cases hresource : httpResource fields.url with
          | none =>
              refine .inl ⟨fun fields' h _ _ => ?_, rfl⟩
              rw [hfields] at h
              cases h
              exact hresource
          | some resource =>
              right
              have hnot : ¬ Refused text := by
                intro hrefused
                rw [hrefused fields hfields hproto haction] at hresource
                cases hresource
              dsimp only
              cases hfilename : httpFilename host resource with
              | none =>
                  refine ⟨srv, (httpKeepalive fields.head).1,
                    [respSetMemory (http404Text host (httpKeepalive fields.head).2)], hnot,
                    ⟨fields, resource, hfields, hresource, ?_⟩, ?_⟩
                  · rw [hfilename]
                  · simp only [http404, httpPart_eq]
                    rfl
              | some filename =>
                  have hfile := @httpReadFile_eq host srv
                    { n with keepalive := (httpKeepalive fields.head).1 } fields.head filename
                    (hrange fields hfields)
                  obtain ⟨srv', parts, hanswer, hread⟩ := hfile
                  refine ⟨srv', (httpKeepalive fields.head).1, parts, hnot,
                    ⟨fields, resource, hfields, hresource, ?_⟩, hread⟩
                  rw [hfilename]
                  exact hanswer
        · rw [if_neg haction]
          refine .inl ⟨fun fields' h _ haction' => ?_, rfl⟩
          rw [hfields] at h
          cases h
          exact absurd haction' haction
      · rw [if_neg hproto]
        refine .inl ⟨fun fields' h hproto' _ => ?_, rfl⟩
        rw [hfields] at h
        cases h
        exact absurd hproto' hproto

end Request

/-! ## All requests in the buffer -/

/-- A connection with an empty queue, whose buffer has some complete requests without
ranges. -/
structure GetRequests where
  n : TcpNode
  requests : List Bytes
  complete : ∀ request ∈ requests, httpCut request = some (request, [])
  noRange : ∀ request ∈ requests, NoRange (requestText request)
  recvBuf_eq : n.recvBuf = requests.flatten
  response_eq : n.response = []
  pipeline_ne : n.pipeline ≠ .shutdown

/-- The connection is closed, or the queue has the whole answer of every request, in
order and nothing else. -/
def AnsweredWhole (host : Host) (srv : Server) (q : GetRequests) : Prop :=
  (httpBuf host srv q.n).2.pipeline = .shutdown ∨
    ∃ answers, List.Forall₂ (fun request => WholeAnswer host (requestText request)) q.requests
      answers ∧ (httpBuf host srv q.n).2.response = answers.flatten

section Buffer

variable {host : Host}

/-- The next request, and what `http_buf` does behind it. -/
theorem httpBufLoop_cons
    {n : TcpNode} {request rest : Bytes} (hcomplete : httpCut request = some (request, []))
    (hrecv : n.recvBuf = request ++ rest) (fuel : Nat) (srv : Server) :
    ∃ n₁ : TcpNode, n₁.recvBuf = rest ∧ n₁.response = n.response ∧ n₁.pipeline = n.pipeline ∧
      httpBufLoop host (fuel + 1) srv n =
        let served := httpRequest host srv n₁ (requestText request)
        if served.2.pipeline = .shutdown then served
        else httpBufLoop host fuel served.1 served.2 := by
  have hcut : httpCut n.recvBuf = some (request, rest) := by
    rw [hrecv]
    exact httpRequests.cut_append rest hcomplete
  refine ⟨n.dropRecv request.length, ?_, rfl, rfl, httpBufLoop_of_some fuel srv hcut⟩
  change n.recvBuf.drop request.length = rest
  rw [hrecv, List.drop_left]

theorem httpBufLoop_nil {n : TcpNode} (hrecv : n.recvBuf = []) (fuel : Nat) (srv : Server) :
    httpBufLoop host fuel srv n = (srv, n) := by
  refine httpBufLoop_of_none fuel srv ?_
  rw [hrecv]
  rfl

/-- A request is refused, or the queue has all parts as far as there is room. -/
theorem httpBufLoop_requests
    {requests : List Bytes}
    (hcomplete : ∀ request ∈ requests, httpCut request = some (request, []))
    (hrange : ∀ request ∈ requests, NoRange (requestText request))
    {fuel : Nat} (hfuel : requests.length < fuel) (srv : Server) {n : TcpNode}
    (hrecv : n.recvBuf = requests.flatten) (hpipeline : n.pipeline ≠ .shutdown) :
    ((∃ request ∈ requests, Refused (requestText request)) ∧
      (httpBufLoop host fuel srv n).2.pipeline = .shutdown) ∨
    ((¬ ∃ request ∈ requests, Refused (requestText request)) ∧
      (httpBufLoop host fuel srv n).2.pipeline ≠ .shutdown ∧
      ∃ answers, List.Forall₂ (fun request => WholeAnswer host (requestText request)) requests
          answers ∧
        (httpBufLoop host fuel srv n).2.response = putParts n.response answers.flatten) := by
  induction requests generalizing fuel srv n with
  | nil =>
      rw [httpBufLoop_nil hrecv]
      exact .inr ⟨by simp, hpipeline, [], .nil, rfl⟩
  | cons request requests ih =>
      cases fuel with
      | zero =>
          cases hfuel
      | succ fuel =>
          obtain ⟨hfirst, hcomplete⟩ := List.forall_mem_cons.mp hcomplete
          obtain ⟨hfirst', hrange⟩ := List.forall_mem_cons.mp hrange
          rw [List.flatten_cons] at hrecv
          obtain ⟨n₁, hrecv₁, hresponse₁, hpipeline₁, hloop⟩ :=
            @httpBufLoop_cons host n request _ hfirst hrecv fuel srv
          rw [hloop]
          rcases @httpRequest_cases host srv n₁ _ hfirst' with ⟨hrefused, hshutdown⟩ |
            ⟨srv', mode, parts, hnot, hwhole, hrequest⟩
          · left
            dsimp only
            rw [if_pos hshutdown]
            exact ⟨⟨request, List.mem_cons_self, hrefused⟩, hshutdown⟩
          · rw [hrequest]
            dsimp only
            rw [if_neg (by rw [hpipeline₁]; exact hpipeline)]
            rcases ih hcomplete hrange (Nat.lt_of_succ_lt_succ hfuel) srv'
                (n := { n₁ with keepalive := mode, response := putParts n₁.response parts }) hrecv₁
                (by rw [hpipeline₁]; exact hpipeline) with
              ⟨⟨request', hmem, hrefused⟩, hshutdown⟩ |
              ⟨hnone, hopen, answers, hanswers, hresponse⟩
            · exact .inl ⟨⟨request', List.mem_cons_of_mem request hmem, hrefused⟩, hshutdown⟩
            · refine .inr ⟨?_, hopen, parts :: answers, .cons hwhole hanswers, ?_⟩
              · rintro ⟨request', hmem, hrefused⟩
                rcases List.mem_cons.mp hmem with rfl | hmem
                · exact hnot hrefused
                · exact hnone ⟨request', hmem, hrefused⟩
              · rw [hresponse, List.flatten_cons, hresponse₁, putParts, putParts, putParts,
                  List.foldl_append]

/-- The whole answers have as many parts as are counted. -/
theorem length_flatten_of_wholeAnswers
    {requests : List Bytes} {answers : List (List Response)}
    (h : List.Forall₂ (fun request => WholeAnswer host (requestText request)) requests answers) :
    answers.flatten.length = (requests.map fun r => partCount host (requestText r)).sum := by
  induction h with
  | nil =>
      rfl
  | cons hwhole _ ih =>
      rw [List.flatten_cons, List.length_append, hwhole.length_eq, ih, List.map_cons,
        List.sum_cons]

/-- The condition, and what happens without it. -/
theorem answeredWhole_iff (srv : Server) (q : GetRequests) :
    AnsweredWhole host srv q ↔
      (∃ request ∈ q.requests, Refused (requestText request)) ∨
        (q.requests.map fun r => partCount host (requestText r)).sum ≤ respCapacity := by
  have hfuel : q.requests.length < q.n.recvBuf.length + 1 := by
    have hle : q.requests.length ≤ q.requests.flatten.length := by
      have hone : (q.requests.map List.length).length • 1 ≤ (q.requests.map List.length).sum := by
        refine List.card_nsmul_le_sum _ 1 fun k hk => ?_
        obtain ⟨request, hmem, rfl⟩ := List.mem_map.mp hk
        have hne := httpRequests.cut_ne_nil (q.complete request hmem)
        exact List.length_pos_iff.mpr hne
      rwa [smul_eq_mul, Nat.mul_one, List.length_map, ← List.length_flatten] at hone
    rw [q.recvBuf_eq]
    omega
  have hempty : q.n.response.length ≤ respCapacity := by
    rw [q.response_eq]
    exact Nat.zero_le _
  rcases @httpBufLoop_requests host q.requests q.complete q.noRange _ hfuel srv q.n q.recvBuf_eq
      q.pipeline_ne with ⟨hrefused, hshutdown⟩ | ⟨hnone, hopen, answers, hanswers, hresponse⟩
  · exact iff_of_true (.inl hshutdown) (.inl hrefused)
  · have hcount := length_flatten_of_wholeAnswers hanswers
    constructor
    · rintro (hshutdown | ⟨answers', hanswers', hresponse'⟩)
      · exact absurd hshutdown hopen
      · right
        rw [← length_flatten_of_wholeAnswers hanswers', ← hresponse']
        change (httpBufLoop host _ srv q.n).2.response.length ≤ _
        rw [hresponse]
        exact length_putParts_le _ hempty
    · rintro (hrefused | hroom)
      · exact absurd hrefused hnone
      · refine .inr ⟨answers, hanswers, ?_⟩
        change (httpBufLoop host _ srv q.n).2.response = _
        rw [hresponse, q.response_eq, putParts_of_le (by rw [List.length_nil, hcount]; omega),
          List.nil_append]

/-- The answers to the requests in a buffer are whole in exactly the case that one of
the requests is refused or the answers have at most 101 parts together. -/
theorem whole_answers_iff (srv : Server) (q : GetRequests) :
    AnsweredWhole host srv q ↔
      (∃ request ∈ q.requests, Refused (requestText request)) ∨
        (q.requests.map fun r => partCount host (requestText r)).sum ≤ 101 :=
  answeredWhole_iff srv q

end Buffer

theorem size_hello : (cstr "hello").length < 2 ^ 63 := by decide

/-- A web server with one file of five bytes. -/
def fiveHost : Host where
  home := cstr "/www"
  file := cstr "index.html"
  files := fun name =>
    if name = cstr "/www/a" then some ⟨.regular, cstr "hello", 0, size_hello⟩ else none
  magic := fun _ => none
  now := 1297369539

/-- The request for the file. -/
def getA : Bytes :=
  cstr "GET /a HTTP/1.1\r\n\r\n"

/-- The request, 53 times. -/
def fiftyThree : GetRequests where
  n := { nodePut with
    recvBuf := (List.replicate 53 getA).flatten
    recv_le := by decide +kernel }
  requests := List.replicate 53 getA
  complete := by
    intro request hrequest
    rw [List.eq_of_mem_replicate hrequest]
    decide +kernel
  noRange := by
    intro request hrequest
    rw [List.eq_of_mem_replicate hrequest]
    decide +kernel
  recvBuf_eq := rfl
  response_eq := rfl
  pipeline_ne := by decide

/-- The answers have 106 parts, and five of them get lost. -/
theorem whole_answers_fails :
    ¬ ∀ (host : Host) (srv : Server) (q : GetRequests), AnsweredWhole host srv q := by
  intro h
  have hwhole := h fiveHost ⟨hashInit 1 (by decide), ⟨fun _ => 0, fun _ => 0⟩⟩ fiftyThree
  rcases (answeredWhole_iff _ _).mp hwhole with ⟨request, hrequest, hrefused⟩ | hroom
  · rw [List.eq_of_mem_replicate hrequest] at hrefused
    exact absurd hrefused (by decide +kernel)
  · have hcount : partCount fiveHost (requestText getA) = 2 := by
      decide +kernel
    change ((List.replicate 53 getA).map fun r => partCount fiveHost (requestText r)).sum ≤ _
      at hroom
    rw [List.map_replicate, List.sum_replicate, hcount] at hroom
    exact absurd hroom (by decide)

end Torrentkino
