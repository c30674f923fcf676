import Torrentkino.Web.Tcp

/-!
# Requests in pieces

A stream of requests that ask for `keep-alive` may arrive in any pieces.  As
long as the requests are answered and the queue has room for the answers, the
way the stream is cut makes no difference, with one exception: a first piece
that ends inside the first request.  Nothing was parsed then, no mode is known,
and `send_cork_stop` closes the connection.

**Results.**
* `sameResponses_iff`: two cuts of a stream lead to the same responses over a
  connection that stays open exactly when the first piece of both holds the
  whole first request.
-/

namespace Torrentkino

open Memory CString Simulation

/-- A complete request: it ends with its first empty line. -/
structure IsRequest (request : Bytes) : Prop where
  ends : strstr request crlfcrlf = some (request.length - 4)
  nulFree : (0 : UInt8) ∉ request
  /-- `GET / HTTP/1.1` -/
  long : 14 < request.length

instance (request : Bytes) : Decidable (IsRequest request) :=
  decidable_of_iff
    (strstr request crlfcrlf = some (request.length - 4) ∧ (0 : UInt8) ∉ request ∧
      14 < request.length)
    ⟨fun ⟨ends, nulFree, long⟩ => ⟨ends, nulFree, long⟩,
      fun h => ⟨h.ends, h.nulFree, h.long⟩⟩

/-- The pieces that `recv` delivers. -/
structure CutOf (requests chunks : List Bytes) : Prop where
  flatten_eq : chunks.flatten = requests.flatten
  ne_nil : [] ∉ chunks

/-- A new connection. -/
def connInit (srv : Server) : Conn where
  srv := srv
  node := nodePut
  calls := 0
  sent := []

/-- The requests that the piece completes have at most as many response parts
as the queue holds. -/
def HasRoom (host : Host) (c : Conn) (chunk : Bytes) : Prop :=
  c.node.pipeline = .ready → ∀ parts srv,
    httpAnswers host c.srv (httpRequests.segments (c.node.recvBuf ++ chunk)).1 =
      some (parts, srv) →
    parts.length ≤ respCapacity

/-- The first piece holds the whole first request. -/
def FirstWhole (requests chunks : List Bytes) : Prop :=
  ∀ request ∈ requests.head?, ∀ chunk ∈ chunks.head?, request.length ≤ chunk.length

/-- What was sent over the connection, and its state. -/
def outcome (host : Host) (fuel : Nat) (srv : Server) (chunks : List Bytes) :
    Except WebFault (Bytes × Pipeline) :=
  (run (tcpInput host acceptAll fuel) (connInit srv) chunks).map
    fun c => (c.sent, c.node.pipeline)

/-- Each piece leaves the connection waiting for the next one. -/
def StaysReady (host : Host) (fuel : Nat) (srv : Server) (chunks : List Bytes) : Prop :=
  AllSteps (fun _ _ c' => c'.node.pipeline = .ready) (tcpInput host acceptAll fuel)
    (connInit srv) chunks

/-- Both ways to cut the stream lead to the same responses and the same state,
and leave the connection open in between. -/
def SameResponses (host : Host) (fuel : Nat) (srv : Server) (chunks₁ chunks₂ : List Bytes) :
    Prop :=
  (∃ result, outcome host fuel srv chunks₁ = .ok result ∧
      outcome host fuel srv chunks₂ = .ok result) ∧
    StaysReady host fuel srv chunks₁ ∧ StaysReady host fuel srv chunks₂

section Pipeline

variable {host : Host} {fuel : Nat}

theorem IsRequest.complete {request : Bytes} (h : IsRequest request) :
    httpRequests.Complete request := by
  have hle : 4 ≤ request.length := by
    have := h.long
    omega
  have hends : strstr (cString request) crlfcrlf = some (request.length - 4) := by
    rw [cString_eq_self h.nulFree]
    exact h.ends
  have hcut := httpCut_of_strstr h.long hends
  rwa [Nat.sub_add_cancel hle, List.take_length, List.drop_length] at hcut

/-- A connection that waits for the rest of some requests, which will all be
answered. -/
structure Serving (host : Host) (c : Conn) (requests : List Bytes) (more : Bytes)
    (parts : List Response) : Prop where
  waiting : c.Waiting
  pending : httpCut c.node.recvBuf = none
  stream : c.node.recvBuf ++ more = requests.flatten
  size : (c.node.recvBuf ++ more).length < bufOff1
  complete : ∀ request ∈ requests, httpRequests.Complete request
  keeps : ∀ request ∈ requests, KeepsAlive request
  answers : ∃ srv, httpAnswers host c.srv requests = some (parts, srv)

/-- When nothing more is to come, everything was answered. -/
theorem Serving.nil
    {c : Conn} {requests : List Bytes} {parts : List Response}
    (h : Serving host c requests [] parts) :
    parts = [] := by
  obtain ⟨srv, hanswers⟩ := h.answers
  cases requests with
  | nil =>
      cases hanswers
      rfl
  | cons request requests =>
      have hstream := h.stream
      rw [List.append_nil, List.flatten_cons] at hstream
      have hcut := (h.complete request (List.mem_cons_self ..)).cut_append requests.flatten
      rw [← hstream] at hcut
      exact absurd (hcut.symm.trans h.pending) (by simp)

/-- One piece: the answers to the requests it completes are sent. -/
theorem Serving.step
    {c : Conn} {requests : List Bytes} {chunk more : Bytes} {parts : List Response}
    (h : Serving host c requests (chunk ++ more) parts) (hroom : HasRoom host c chunk)
    (hfuel : respCapacity < fuel) :
    ∃ c' parts₁ parts₂, tcpInput host acceptAll fuel c chunk = .ok c' ∧
      parts = parts₁ ++ parts₂ ∧ c'.sent = c.sent ++ parts₁.flatMap (·.bytes host) ∧
      c'.node.keepalive =
        modeAfter c.node.keepalive (httpRequests.segments (c.node.recvBuf ++ chunk)).1 ∧
      c'.node.pipeline = (if c'.node.keepalive = .keepalive then .ready else .shutdown) ∧
      (c'.node.pipeline = .ready → ∃ later, Serving host c' later more parts₂) := by
  have hstream := h.stream
  have hsize := h.size
  rw [← List.append_assoc] at hstream hsize
  obtain ⟨later, hrequests, hlater⟩ := httpRequests.split_flatten h.complete hstream
  obtain ⟨srv, hanswers⟩ := h.answers
  rw [hrequests] at hanswers
  obtain ⟨parts₁, srv₁, parts₂, h₁, h₂, rfl⟩ := httpAnswers_append hanswers
  have hmem : ∀ request ∈ (httpRequests.segments (c.node.recvBuf ++ chunk)).1,
      request ∈ requests := by
    intro request hrequest
    rw [hrequests]
    exact List.mem_append_left later hrequest
  have hmem' : ∀ request ∈ later, request ∈ requests := by
    intro request hrequest
    rw [hrequests]
    exact List.mem_append_right _ hrequest
  obtain ⟨c', hbuffer, hanswered⟩ := @tcpBuffer_of_answers host fuel c chunk parts₁ srv₁ h.waiting
    (by rw [List.length_append] at hsize; omega) h₁
    (fun request hrequest => h.keeps request (hmem request hrequest)) (hroom h.waiting.pipeline _ _ h₁)
    hfuel
  refine ⟨c', parts₁, parts₂, ?_, rfl, hanswered.sent, hanswered.keepalive, ?_, ?_⟩
  · rw [tcpInput, h.waiting.pipeline]
    exact hbuffer
  · rw [hanswered.keepalive]
    exact hanswered.pipeline
  · intro hready
    refine ⟨later, ⟨hready, hanswered.response⟩, ?_, ?_, ?_, ?_, ?_, srv, ?_⟩
    · rw [hanswered.recvBuf]
      exact httpRequests.cut_rest _
    · rw [hanswered.recvBuf]
      exact hlater
    · rw [hanswered.recvBuf]
      have hlen := congrArg List.length
        (httpRequests.flatten_segments (c.node.recvBuf ++ chunk))
      simp only [List.length_append] at hlen hsize ⊢
      omega
    · exact fun request hrequest => h.complete request (hmem' request hrequest)
    · exact fun request hrequest => h.keeps request (hmem' request hrequest)
    · rw [hanswered.srv]
      exact h₂

/-- A connection answers everything if it is in the mode `keep-alive` after the
first piece. -/
theorem Serving.run
    {c : Conn} {requests chunks : List Bytes} {parts : List Response}
    (h : Serving host c requests chunks.flatten parts)
    (hmode : ∀ chunk ∈ chunks.head?,
      modeAfter c.node.keepalive (httpRequests.segments (c.node.recvBuf ++ chunk)).1 =
        .keepalive)
    (hroom : Along (HasRoom host) (tcpInput host acceptAll fuel) c chunks)
    (hfuel : respCapacity < fuel) :
    (∃ c', run (tcpInput host acceptAll fuel) c chunks = .ok c' ∧
      c'.sent = c.sent ++ parts.flatMap (·.bytes host) ∧ c'.node.pipeline = .ready) ∧
    AllSteps (fun _ _ c' => c'.node.pipeline = .ready) (tcpInput host acceptAll fuel) c
      chunks := by
  induction chunks generalizing c requests parts with
  | nil =>
      refine ⟨⟨c, rfl, ?_, h.waiting.pipeline⟩, trivial⟩
      rw [h.nil]
      simp
  | cons chunk chunks ih =>
      obtain ⟨c₁, parts₁, parts₂, hinput, rfl, hsent, hkeep, hpipe, hserving⟩ :=
        h.step hroom.1 hfuel
      have hmode₁ : c₁.node.keepalive = .keepalive := by
        rw [hkeep]
        exact hmode chunk rfl
      have hready : c₁.node.pipeline = .ready := by
        rw [hpipe, if_pos hmode₁]
      obtain ⟨later, hlater⟩ := hserving hready
      obtain ⟨⟨c', hrun, hsent', hready'⟩, hsteps⟩ := ih hlater
        (fun chunk' _ => by rw [hmode₁, modeAfter, ite_self]) (hroom.2 c₁ hinput)
      refine ⟨⟨c', ?_, ?_, hready'⟩, ?_⟩
      · rw [Simulation.run, hinput]
        exact hrun
      · rw [hsent', hsent, List.flatMap_append, List.append_assoc]
      · intro c₂ hinput'
        rw [hinput] at hinput'
        cases hinput'
        exact ⟨hready, hsteps⟩

/-- A new connection that gets some requests. -/
theorem serving_connInit
    {srv srv' : Server} {requests chunks : List Bytes} {parts : List Response}
    (hrequests : ∀ request ∈ requests, IsRequest request ∧ KeepsAlive request)
    (hsize : requests.flatten.length < bufOff1)
    (hanswers : httpAnswers host srv requests = some (parts, srv'))
    (hcut : CutOf requests chunks) :
    Serving host (connInit srv) requests chunks.flatten parts where
  waiting := ⟨rfl, rfl⟩
  pending := rfl
  stream := hcut.flatten_eq
  size := by
    rw [hcut.flatten_eq]
    exact hsize
  complete := fun request hrequest => (hrequests request hrequest).1.complete
  keeps := fun request hrequest => (hrequests request hrequest).2
  answers := ⟨srv', hanswers⟩

/-- The first piece completes a request exactly when it holds the whole first
request. -/
theorem segments_ne_nil_iff
    {request : Bytes} {requests : List Bytes} {chunk more : Bytes}
    (hcomplete : ∀ r ∈ request :: requests, httpRequests.Complete r)
    (hstream : chunk ++ more = (request :: requests).flatten) :
    (httpRequests.segments chunk).1 ≠ [] ↔ request.length ≤ chunk.length := by
  constructor
  · intro hne
    obtain ⟨later, hsplit, -⟩ := httpRequests.split_flatten hcomplete hstream
    obtain ⟨first, others, hfirst⟩ := List.exists_cons_of_ne_nil hne
    rw [hfirst, List.cons_append, List.cons.injEq] at hsplit
    have hlen := congrArg List.length (httpRequests.flatten_segments chunk)
    rw [hfirst, List.flatten_cons, List.append_assoc, List.length_append, ← hsplit.1] at hlen
    omega
  · intro hle
    have hprefix : request <+: chunk := by
      refine List.prefix_of_prefix_length_le ?_ (List.prefix_append chunk more) hle
      rw [hstream, List.flatten_cons]
      exact List.prefix_append _ _
    obtain ⟨tail, rfl⟩ := hprefix
    have hcut := (hcomplete request (List.mem_cons_self ..)).cut_append tail
    rw [httpRequests.segments_of_some hcut]
    exact List.cons_ne_nil _ _

/-! ## Room in the queue -/

/-- On a connection that was shut down nothing happens any more. -/
theorem along_hasRoom_of_shutdown
    {c : Conn} (chunks : List Bytes) (h : c.node.pipeline = .shutdown) :
    Along (HasRoom host) (tcpInput host acceptAll fuel) c chunks := by
  induction chunks with
  | nil =>
      trivial
  | cons chunk chunks ih =>
      refine ⟨fun hready => ?_, fun c' hinput => ?_⟩
      · rw [h] at hready
        cases hready
      · rw [tcpInput, h] at hinput
        cases hinput
        exact ih

/-- When the queue has room for the answers to the whole stream, every cut
leaves enough room. -/
theorem Serving.along_hasRoom
    {c : Conn} {requests chunks : List Bytes} {parts : List Response}
    (h : Serving host c requests chunks.flatten parts)
    (hlen : parts.length ≤ respCapacity) (hfuel : respCapacity < fuel) :
    Along (HasRoom host) (tcpInput host acceptAll fuel) c chunks := by
  induction chunks generalizing c requests parts with
  | nil =>
      trivial
  | cons chunk chunks ih =>
      have hroom : HasRoom host c chunk := by
        intro _ parts₁ srv₁ h₁
        obtain ⟨srv, hanswers⟩ := h.answers
        obtain ⟨later, hrequests, -⟩ := httpRequests.split_flatten h.complete
          ((List.append_assoc ..).trans h.stream)
        rw [hrequests] at hanswers
        obtain ⟨parts₁', srv₁', parts₂, h₁', -, rfl⟩ := httpAnswers_append hanswers
        cases h₁'.symm.trans h₁
        rw [List.length_append] at hlen
        omega
      refine ⟨hroom, fun c' hinput => ?_⟩
      obtain ⟨c₁, parts₁, parts₂, hinput₁, rfl, -, -, hpipe, hserving⟩ := h.step hroom hfuel
      cases hinput₁.symm.trans hinput
      by_cases hmode : c'.node.keepalive = .keepalive
      · rw [if_pos hmode] at hpipe
        obtain ⟨later, hlater⟩ := hserving hpipe
        rw [List.length_append] at hlen
        exact ih hlater (by omega)
      · rw [if_neg hmode] at hpipe
        exact along_hasRoom_of_shutdown chunks hpipe

/-! ## Two cuts -/

section Cut

variable {srv : Server} {requests chunks : List Bytes}

/-- With a whole first request all responses are sent. -/
theorem outcome_of_firstWhole
    {srv' : Server} {parts : List Response}
    (hrequests : ∀ request ∈ requests, IsRequest request ∧ KeepsAlive request)
    (hsize : requests.flatten.length < bufOff1)
    (hanswers : httpAnswers host srv requests = some (parts, srv'))
    (hcut : CutOf requests chunks)
    (hroom : Along (HasRoom host) (tcpInput host acceptAll fuel) (connInit srv) chunks)
    (hfuel : respCapacity < fuel) (hfirst : FirstWhole requests chunks) :
    outcome host fuel srv chunks = .ok (parts.flatMap (·.bytes host), .ready) ∧
      StaysReady host fuel srv chunks := by
  have hserving := serving_connInit hrequests hsize hanswers hcut
  have hmode : ∀ chunk ∈ chunks.head?,
      modeAfter (connInit srv).node.keepalive
        (httpRequests.segments ((connInit srv).node.recvBuf ++ chunk)).1 = .keepalive := by
    intro chunk hchunk
    obtain ⟨chunks, rfl⟩ := List.head?_eq_some_iff.mp hchunk
    cases requests with
    | nil =>
        have hnil : (chunk :: chunks).flatten = [] := hcut.flatten_eq
        rw [List.flatten_cons, List.append_eq_nil_iff] at hnil
        exact absurd (hnil.1 ▸ List.mem_cons_self ..) hcut.ne_nil
    | cons request requests =>
        have hne := (segments_ne_nil_iff hserving.complete hcut.flatten_eq).mpr
          (hfirst request rfl chunk rfl)
        exact if_neg hne
  obtain ⟨⟨c', hrun, hsent, hready⟩, hsteps⟩ := hserving.run hmode hroom hfuel
  refine ⟨?_, hsteps⟩
  rw [outcome, hrun]
  simp only [Except.map, hsent, hready]
  rfl

/-- A first piece that ends inside the first request closes the connection. -/
theorem firstWhole_of_staysReady
    {answers : List Response × Server}
    (hrequests : ∀ request ∈ requests, IsRequest request ∧ KeepsAlive request)
    (hsize : requests.flatten.length < bufOff1)
    (hanswers : httpAnswers host srv requests = some answers)
    (hcut : CutOf requests chunks)
    (hroom : Along (HasRoom host) (tcpInput host acceptAll fuel) (connInit srv) chunks)
    (hfuel : respCapacity < fuel) (hready : StaysReady host fuel srv chunks) :
    FirstWhole requests chunks := by
  intro request hrequest chunk hchunk
  obtain ⟨chunks, rfl⟩ := List.head?_eq_some_iff.mp hchunk
  obtain ⟨requests, rfl⟩ := List.head?_eq_some_iff.mp hrequest
  have hserving := serving_connInit hrequests hsize hanswers hcut
  obtain ⟨c', parts₁, parts₂, hinput, -, -, hkeep, hpipe, -⟩ := hserving.step hroom.1 hfuel
  refine (segments_ne_nil_iff hserving.complete hcut.flatten_eq).mp ?_
  intro hnone
  have hmode : c'.node.keepalive = .undef := by
    rw [hkeep]
    exact if_pos hnone
  rw [(hready c' hinput).1, hmode] at hpipe
  cases hpipe

end Cut

/-- The responses do not depend on how a stream of requests is cut, and the
connection stays open, exactly for the cuts whose first piece holds the whole
first request.  The other two parts of the condition are hypotheses: every request is
answered on a connection of its own (`hanswers`), and the requests that end in one piece
have no more parts than the queue takes (`hroom₁`, `hroom₂`). -/
theorem sameResponses_iff
    (host : Host) (srv : Server) {requests chunks₁ chunks₂ : List Bytes} {fuel : Nat}
    (hrequests : ∀ request ∈ requests, IsRequest request ∧ KeepsAlive request)
    (hsize : requests.flatten.length < bufOff1)
    (hanswers : (httpAnswers host srv requests).isSome)
    (hcut₁ : CutOf requests chunks₁) (hcut₂ : CutOf requests chunks₂)
    (hroom₁ : Along (HasRoom host) (tcpInput host acceptAll fuel) (connInit srv) chunks₁)
    (hroom₂ : Along (HasRoom host) (tcpInput host acceptAll fuel) (connInit srv) chunks₂)
    (hfuel : respCapacity < fuel) :
    SameResponses host fuel srv chunks₁ chunks₂ ↔
      FirstWhole requests chunks₁ ∧ FirstWhole requests chunks₂ := by
  obtain ⟨⟨parts, srv'⟩, hanswers⟩ := Option.isSome_iff_exists.mp hanswers
  constructor
  · rintro ⟨-, hready₁, hready₂⟩
    exact ⟨firstWhole_of_staysReady hrequests hsize hanswers hcut₁ hroom₁ hfuel hready₁,
      firstWhole_of_staysReady hrequests hsize hanswers hcut₂ hroom₂ hfuel hready₂⟩
  · rintro ⟨hfirst₁, hfirst₂⟩
    obtain ⟨hout₁, hready₁⟩ :=
      outcome_of_firstWhole hrequests hsize hanswers hcut₁ hroom₁ hfuel hfirst₁
    obtain ⟨hout₂, hready₂⟩ :=
      outcome_of_firstWhole hrequests hsize hanswers hcut₂ hroom₂ hfuel hfirst₂
    exact ⟨⟨_, hout₁, hout₂⟩, hready₁, hready₂⟩

end Pipeline

/-! ## A request in two pieces -/

/-- A directory with an index file. -/
def wwwHost : Host where
  home := cstr "/var/www"
  file := cstr "index.html"
  files := fun name =>
    if name = cstr "/var/www/" then some ⟨.directory, [], 0, Stat.size_nil⟩
    else if name = cstr "/var/www//index.html" then some ⟨.regular, cstr "hello", 0, by decide⟩
    else none
  magic := fun _ => none
  now := 1297369539

def wwwServer : Server where
  mime := mimeHash
  random := ⟨fun _ => 0, fun _ => 0⟩

/-- The shortest request that keeps the connection open. -/
def getIndex : Bytes :=
  cstr "GET / HTTP/1.1\r\nConnection: keep-alive\r\n\r\n"

theorem getIndex_keepsAlive :
    ∀ request ∈ [getIndex, getIndex], IsRequest request ∧ KeepsAlive request := by
  decide +kernel

/-- The index file is sent with a header and a body. -/
theorem getIndex_answers :
    ∃ answers, httpAnswers wwwHost wwwServer [getIndex, getIndex] = some answers ∧
      answers.1.length = 4 := by
  have hany : (httpAnswers wwwHost wwwServer [getIndex, getIndex]).any
      (fun answers => answers.1.length = 4) := by
    decide +kernel
  simpa [Option.any_eq_true] using hany

/-- Two requests at once, and the second one in two pieces. -/
theorem sameResponses_getIndex :
    FirstWhole [getIndex, getIndex] [getIndex ++ getIndex] ∧
      FirstWhole [getIndex, getIndex] [getIndex ++ getIndex.take 20, getIndex.drop 20] ∧
      SameResponses wwwHost 102 wwwServer [getIndex ++ getIndex]
        [getIndex ++ getIndex.take 20, getIndex.drop 20] := by
  have hsize : [getIndex, getIndex].flatten.length < bufOff1 := by
    decide +kernel
  have hcut₁ : CutOf [getIndex, getIndex] [getIndex ++ getIndex] :=
    ⟨by decide +kernel, by decide +kernel⟩
  have hcut₂ : CutOf [getIndex, getIndex] [getIndex ++ getIndex.take 20, getIndex.drop 20] :=
    ⟨by decide +kernel, by decide +kernel⟩
  have hfirst₁ : FirstWhole [getIndex, getIndex] [getIndex ++ getIndex] := by
    rintro _ ⟨⟩ _ ⟨⟩
    decide +kernel
  have hfirst₂ : FirstWhole [getIndex, getIndex]
      [getIndex ++ getIndex.take 20, getIndex.drop 20] := by
    rintro _ ⟨⟩ _ ⟨⟩
    decide +kernel
  obtain ⟨answers, hanswers, hlen⟩ := getIndex_answers
  have hroom : answers.1.length ≤ respCapacity := by
    rw [hlen]
    decide
  have hserving : ∀ {chunks}, CutOf [getIndex, getIndex] chunks →
      Serving wwwHost (connInit wwwServer) [getIndex, getIndex] chunks.flatten answers.1 :=
    serving_connInit getIndex_keepsAlive hsize hanswers
  refine ⟨hfirst₁, hfirst₂, ?_⟩
  exact (sameResponses_iff wwwHost wwwServer getIndex_keepsAlive hsize
    (Option.isSome_iff_exists.mpr ⟨answers, hanswers⟩) hcut₁ hcut₂
    ((hserving hcut₁).along_hasRoom hroom (by decide))
    ((hserving hcut₂).along_hasRoom hroom (by decide)) (by decide)).mpr ⟨hfirst₁, hfirst₂⟩

/-- One request in two pieces: the connection is closed after the first one,
and nothing is sent. -/
theorem not_sameResponses_getIndex :
    IsRequest getIndex ∧ KeepsAlive getIndex ∧ [getIndex].flatten.length < bufOff1 ∧
      [getIndex].flatten = [getIndex.take 20, getIndex.drop 20].flatten ∧
      outcome wwwHost 102 wwwServer [getIndex.take 20, getIndex.drop 20] = .ok ([], .shutdown) ∧
      (outcome wwwHost 102 wwwServer [getIndex]).map Prod.snd = .ok .ready ∧
      ¬ SameResponses wwwHost 102 wwwServer [getIndex] [getIndex.take 20, getIndex.drop 20] := by
  have hsplit : outcome wwwHost 102 wwwServer [getIndex.take 20, getIndex.drop 20] =
      .ok ([], .shutdown) := by
    decide +kernel
  have hwhole : (outcome wwwHost 102 wwwServer [getIndex]).map Prod.snd = .ok .ready := by
    decide +kernel
  refine ⟨by decide +kernel, by decide +kernel, by decide +kernel, by decide +kernel, hsplit,
    hwhole, ?_⟩
  rintro ⟨⟨result, hresult₁, hresult₂⟩, -⟩
  cases hsplit.symm.trans hresult₂
  rw [hresult₁] at hwhole
  cases hwhole

end Torrentkino
