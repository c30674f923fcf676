import Torrentkino.Lib.Segments
import Torrentkino.Lib.Simulation
import Torrentkino.Web.Answer

/-!
# `web/tcp.c`

What happens when data arrives on a connection, and how the requests in it are
found.  `http_buf` cuts the buffer at the first empty line; whether a request is
complete does not depend on what follows it, so the cutting is a `Segmenter`.

**Results.**
* `httpBuf_eq`: the recursion of `http_buf` ends, and takes one request after
  the other.
* `httpBuf_of_answers`: when all requests in the buffer get an answer and the
  queue has room for them, `http_buf` queues the answers in order and leaves the
  start of the next request.
* `tcpBuffer_of_answers`: what then goes over a socket that takes everything.
-/

namespace Torrentkino

open Memory CString

section Tcp

variable (host : Host) (socket : Socket)

/-- `tcp_buffer` -/
def tcpBuffer (fuel : Nat) (c : Conn) (buffer : Bytes) : Except WebFault Conn :=
  let c := { c with node := nodeAppendBuffer c.node buffer }
  if c.node.pipeline ≠ .ready then .error .notReady
  else if c.node.recvBuf.length ≥ bufOff1 then .ok (c.status .shutdown)
  else
    let parsed := httpBuf host c.srv c.node
    httpSend host socket fuel { c with srv := parsed.1, node := parsed.2 }

/-- `tcp_input`, when data can be read.  `tcp_gate` closes a connection in the
state `NODE_SHUTDOWN`, and waits for input in the state `NODE_READY` only. -/
def tcpInput (fuel : Nat) (c : Conn) (buffer : Bytes) : Except WebFault Conn :=
  match c.node.pipeline with
  | .ready => tcpBuffer host socket fuel c buffer
  | _ => .ok c

end Tcp

/-! ## The requests in a buffer -/

/-- What was cut off the buffer lies inside it. -/
theorem httpCut_eq_some
    {b request rest : Bytes} (h : httpCut b = some (request, rest)) :
    14 < b.length ∧ ∃ i, strstr (cString b) crlfcrlf = some i ∧ i + 4 ≤ b.length ∧
      request = b.take (i + 4) ∧ rest = b.drop (i + 4) := by
  rw [httpCut] at h
  split at h
  · cases h
  rename_i hlen
  split at h
  · cases h
  rename_i i hi
  cases h
  have hle : i + 4 ≤ (cString b).length := strstr_le hi
  exact ⟨Nat.lt_of_not_le hlen, i, hi, hle.trans (cString_length_le b), rfl, rfl⟩

theorem httpCut_of_strstr
    {b : Bytes} {i : Nat} (hlen : 14 < b.length) (h : strstr (cString b) crlfcrlf = some i) :
    httpCut b = some (b.take (i + 4), b.drop (i + 4)) := by
  rw [httpCut, if_neg (Nat.not_le.mpr hlen), h]

/-- The requests of a stream. -/
def httpRequests : Segmenter UInt8 where
  cut := httpCut
  cut_eq := by
    intro b request rest h
    obtain ⟨-, i, -, -, rfl, rfl⟩ := httpCut_eq_some h
    exact (List.take_append_drop _ b).symm
  cut_ne_nil := by
    intro b request rest h
    obtain ⟨hlen, i, -, -, rfl, -⟩ := httpCut_eq_some h
    intro hnil
    rw [List.take_eq_nil_iff] at hnil
    rcases hnil with hzero | rfl
    · cases hzero
    · exact absurd hlen (by decide)
  cut_append := by
    intro b request rest more h
    obtain ⟨hlen, i, hi, hle, rfl, rfl⟩ := httpCut_eq_some h
    obtain ⟨tail, htail⟩ := cString_append b more
    have hi' : strstr (cString (b ++ more)) crlfcrlf = some i := by
      rw [htail]
      exact strstr_append tail hi
    rw [httpCut_of_strstr (by rw [List.length_append]; omega) hi',
      List.take_append_of_le_length hle, List.drop_append_of_le_length hle]

/-- The answers to requests that follow each other, and the server behind
them. -/
def httpAnswers (host : Host) : Server → List Bytes → Option (List Response × Server)
  | srv, [] => some ([], srv)
  | srv, request :: requests =>
      match httpAnswer host srv (requestText request) with
      | none => none
      | some answer =>
          match httpAnswers host answer.srv requests with
          | none => none
          | some (parts, srv) => some (answer.parts ++ parts, srv)

/-- The request asks for `keep-alive`: this is what `http_keepalive` finds. -/
def KeepsAlive (request : Bytes) : Prop :=
  ∀ fields, httpFields (requestText request) = some fields →
    (httpKeepalive fields.head).1 = .keepalive

instance (request : Bytes) : Decidable (KeepsAlive request) :=
  decidable_of_iff
    ((httpFields (requestText request)).all fun fields =>
      (httpKeepalive fields.head).1 = .keepalive)
    (by simp [KeepsAlive, Option.all_eq_true])

section Answers

variable {host : Host}

theorem httpAnswers_cons
    {srv srv' : Server} {request : Bytes} {requests : List Bytes} {parts : List Response}
    (h : httpAnswers host srv (request :: requests) = some (parts, srv')) :
    ∃ answer later, httpAnswer host srv (requestText request) = some answer ∧
      httpAnswers host answer.srv requests = some (later, srv') ∧
      parts = answer.parts ++ later := by
  rw [httpAnswers] at h
  split at h
  · cases h
  rename_i answer hanswer
  split at h
  · cases h
  rename_i later srv'' hlater
  cases h
  exact ⟨answer, later, hanswer, hlater, rfl⟩

theorem httpAnswers_append
    {srv srv' : Server} {requests later : List Bytes} {parts : List Response}
    (h : httpAnswers host srv (requests ++ later) = some (parts, srv')) :
    ∃ parts₁ srv₁ parts₂, httpAnswers host srv requests = some (parts₁, srv₁) ∧
      httpAnswers host srv₁ later = some (parts₂, srv') ∧ parts = parts₁ ++ parts₂ := by
  induction requests generalizing srv parts with
  | nil =>
      exact ⟨[], srv, parts, rfl, h, rfl⟩
  | cons request requests ih =>
      obtain ⟨answer, rest, hanswer, hrest, rfl⟩ := httpAnswers_cons h
      obtain ⟨parts₁, srv₁, parts₂, h₁, h₂, rfl⟩ := ih hrest
      refine ⟨answer.parts ++ parts₁, srv₁, parts₂, ?_, h₂, (List.append_assoc ..).symm⟩
      simp only [httpAnswers, hanswer, h₁]

theorem httpAnswers_sendable
    {srv srv' : Server} {requests : List Bytes} {parts : List Response}
    (h : httpAnswers host srv requests = some (parts, srv')) :
    ∀ r ∈ parts, r.Sendable host := by
  induction requests generalizing srv parts with
  | nil =>
      cases h
      simp
  | cons request requests ih =>
      obtain ⟨answer, later, hanswer, hlater, rfl⟩ := httpAnswers_cons h
      intro r hr
      rcases List.mem_append.mp hr with hr | hr
      · exact (serves_httpAnswer hanswer).sendable r hr
      · exact ih hlater r hr

/-! ## `http_buf` -/

/-- The mode of a connection after some requests that ask for `keep-alive`. -/
def modeAfter (mode : Keepalive) (requests : List Bytes) : Keepalive :=
  if requests = [] then mode else .keepalive

/-- The connection has the answers in its queue, and the start of the next
request in its buffer. -/
structure Parsed (n : TcpNode) (requests : List Bytes) (rest : Bytes)
    (parts : List Response) (n' : TcpNode) : Prop where
  recvBuf : n'.recvBuf = rest
  keepalive : n'.keepalive = modeAfter n.keepalive requests
  pipeline : n'.pipeline = n.pipeline
  response : n'.response = n.response ++ parts

theorem httpBufLoop_of_none
    {n : TcpNode} (fuel : Nat) (srv : Server) (h : httpCut n.recvBuf = none) :
    httpBufLoop host fuel srv n = (srv, n) := by
  cases fuel with
  | zero =>
      rfl
  | succ fuel =>
      rw [httpBufLoop, h]

/-- One round of `http_buf`.  An empty buffer needs no case of its own: there
is no request in it. -/
theorem httpBufLoop_of_some
    {n : TcpNode} {request rest : Bytes} (fuel : Nat) (srv : Server)
    (h : httpCut n.recvBuf = some (request, rest)) :
    httpBufLoop host (fuel + 1) srv n =
      let served := httpRequest host srv (n.dropRecv request.length) (requestText request)
      if served.2.pipeline = .shutdown then served
      else httpBufLoop host fuel served.1 served.2 := by
  rw [httpBufLoop, h]
  dsimp only
  generalize httpRequest host srv (n.dropRecv request.length) (requestText request) = served
  rcases eq_or_ne served.2.pipeline .shutdown with hshutdown | hrunning
  · rw [if_pos hshutdown, if_neg (fun hcond => hcond.1 hshutdown)]
  · rw [if_neg hrunning]
    rcases eq_or_ne served.2.recvBuf [] with hempty | hmore
    · rw [if_neg (fun hcond => hcond.2 hempty), httpBufLoop_of_none]
      rw [hempty]
      rfl
    · rw [if_pos ⟨hrunning, hmore⟩]

theorem httpBufLoop_of_answers
    {fuel : Nat} {srv srv' : Server} {n : TcpNode} {parts : List Response}
    (hready : n.pipeline = .ready)
    (hanswers : httpAnswers host srv (httpRequests.segments n.recvBuf).1 = some (parts, srv'))
    (hkeeps : ∀ request ∈ (httpRequests.segments n.recvBuf).1, KeepsAlive request)
    (hroom : n.response.length + parts.length ≤ respCapacity)
    (hfuel : n.recvBuf.length < fuel) :
    ∃ n', httpBufLoop host fuel srv n = (srv', n') ∧
      Parsed n (httpRequests.segments n.recvBuf).1 (httpRequests.segments n.recvBuf).2 parts n' := by
  induction fuel generalizing srv n parts with
  | zero =>
      exact absurd hfuel (Nat.not_lt_zero _)
  | succ fuel ih =>
      cases hcut : httpCut n.recvBuf with
      | none =>
          rw [httpRequests.segments_of_none hcut] at hanswers ⊢
          cases hanswers
          exact ⟨n, httpBufLoop_of_none _ _ hcut, rfl, rfl, rfl, by simp⟩
      | some p =>
          obtain ⟨request, rest⟩ := p
          have hrest : n.recvBuf.drop request.length = rest := by
            rw [httpRequests.cut_eq hcut, List.drop_left]
          rw [httpRequests.segments_of_some hcut] at hanswers hkeeps ⊢
          obtain ⟨answer, later, hanswer, hlater, rfl⟩ := httpAnswers_cons hanswers
          have hserves := serves_httpAnswer hanswer
          obtain ⟨fields, hfields, hmode⟩ := hserves.mode
          rw [hkeeps request (List.mem_cons_self ..) fields hfields] at hmode
          rw [List.length_append] at hroom
          -- The connection behind the first request.
          let n₁ : TcpNode :=
            { n.dropRecv request.length with
              response := n.response ++ answer.parts
              keepalive := .keepalive }
          have hrecv : n₁.recvBuf = rest := hrest
          have hfirst : httpRequest host srv (n.dropRecv request.length) (requestText request) =
              (answer.srv, n₁) := by
            rw [hserves.request (n.dropRecv request.length) (by
              simp only [TcpNode.dropRecv]
              omega), hmode]
            rfl
          obtain ⟨n', hloop, hparsed⟩ := @ih answer.srv n₁ later hready
            (by rw [hrecv]; exact hlater)
            (by rw [hrecv]; exact fun r hr => hkeeps r (List.mem_cons_of_mem request hr))
            (by simp only [n₁, List.length_append]; omega)
            (by have := httpRequests.length_rest_lt hcut; rw [hrecv]; omega)
          refine ⟨n', ?_, ?_⟩
          · rw [httpBufLoop_of_some fuel srv hcut, hfirst]
            dsimp only
            rw [if_neg (by rw [show n₁.pipeline = .ready from hready]; decide)]
            exact hloop
          · rw [hrecv] at hparsed
            refine ⟨hparsed.recvBuf, ?_, hparsed.pipeline, ?_⟩
            · rw [hparsed.keepalive]
              simp [modeAfter, n₁]
            · rw [hparsed.response]
              simp [n₁]

/-! ## `tcp_buffer` -/

/-- A connection that waits for input. -/
structure Conn.Waiting (c : Conn) : Prop where
  pipeline : c.node.pipeline = .ready
  response : c.node.response = []

/-- The connection has sent the answers, and goes on in this mode. -/
structure Conn.Answered (host : Host) (c : Conn) (mode : Keepalive) (srv : Server) (rest : Bytes)
    (parts : List Response) (c' : Conn) : Prop where
  srv : c'.srv = srv
  recvBuf : c'.node.recvBuf = rest
  keepalive : c'.node.keepalive = mode
  pipeline : c'.node.pipeline = if mode = .keepalive then .ready else .shutdown
  response : c'.node.response = []
  sent : c'.sent = c.sent ++ parts.flatMap (·.bytes host)

theorem tcpBuffer_of_answers
    {fuel : Nat} {c : Conn} {buffer : Bytes} {parts : List Response} {srv' : Server}
    (hwaiting : c.Waiting)
    (hsize : (c.node.recvBuf ++ buffer).length < bufOff1)
    (hanswers : httpAnswers host c.srv (httpRequests.segments (c.node.recvBuf ++ buffer)).1 =
      some (parts, srv'))
    (hkeeps : ∀ request ∈ (httpRequests.segments (c.node.recvBuf ++ buffer)).1,
      KeepsAlive request)
    (hroom : parts.length ≤ respCapacity) (hfuel : respCapacity < fuel) :
    ∃ c', tcpBuffer host acceptAll fuel c buffer = .ok c' ∧
      c.Answered host
        (modeAfter c.node.keepalive (httpRequests.segments (c.node.recvBuf ++ buffer)).1) srv'
        (httpRequests.segments (c.node.recvBuf ++ buffer)).2 parts c' := by
  have hbuf : (nodeAppendBuffer c.node buffer).recvBuf = c.node.recvBuf ++ buffer :=
    nodeAppendBuffer_recvBuf (by rw [List.length_append] at hsize; omega)
  obtain ⟨n', hloop, hparsed⟩ := @httpBufLoop_of_answers host
    ((nodeAppendBuffer c.node buffer).recvBuf.length + 1) c.srv srv'
    (nodeAppendBuffer c.node buffer) parts hwaiting.pipeline
    (by rw [hbuf]; exact hanswers) (by rw [hbuf]; exact hkeeps)
    (by simpa [nodeAppendBuffer, hwaiting.response] using hroom) (Nat.lt_succ_self _)
  have hresponse : n'.response = parts := by
    rw [hparsed.response]
    simp [nodeAppendBuffer, hwaiting.response]
  obtain ⟨calls, hsend⟩ := @httpSend_accepting host fuel
    { c with srv := srv', node := n' } (hparsed.pipeline.trans hwaiting.pipeline)
    (by
      simp only [hresponse]
      exact httpAnswers_sendable hanswers)
    (by
      simp only [hresponse]
      omega)
  have hbuffer : tcpBuffer host acceptAll fuel c buffer =
      httpSend host acceptAll fuel { c with srv := srv', node := n' } := by
    have hready : (nodeAppendBuffer c.node buffer).pipeline = .ready := hwaiting.pipeline
    simp only [tcpBuffer, hready, ne_eq, not_true_eq_false, if_false, hbuf,
      if_neg (Nat.not_le.mpr hsize), httpBuf]
    rw [hbuf] at hloop
    rw [hloop]
  refine ⟨_, hbuffer.trans hsend, ?_⟩
  rw [hbuf] at hparsed
  exact ⟨rfl, hparsed.recvBuf, hparsed.keepalive, by simp only [hparsed.keepalive]; rfl, rfl,
    by simp only [hresponse]⟩

end Answers
end Torrentkino
