import Torrentkino.Web.Tcp

/-!
# The receive buffer

`http_buf` looks for a request in a copy of the receive buffer, with string functions, and
moves what is behind it to the front of the buffer, by counted bytes.  `http_read` calls it
again for the next one.

* `RecvBuf` is the buffer in memory, `RecvBuf.cut` what `http_buf` does to it.
* `Segment` is a request at the start of some bytes.
* `httpBufMemLoop` are the two functions on the buffer in memory.

**Results.**
* `httpCut_eq_some_iff`, `RecvBuf.cut_of_segment`: what is taken out of the buffer is the
  segment at its start.
* `exists_bufDrained`: the recursion ends and takes one segment after the other.
-/

namespace Torrentkino

open Memory CString

/-! ## Segments -/

/-- The bytes start with a request: it has no zero byte and ends at the first empty line. -/
structure Segment (buf seg rest : Bytes) : Prop where
  long : 14 < buf.length
  buf_eq : buf = seg ++ rest
  nulFree : (0 : UInt8) ∉ seg
  ends : crlfcrlf <:+ seg
  first : ∀ early, early <+: seg → crlfcrlf <:+ early → early = seg

section Segment

variable {buf seg seg' rest rest' : Bytes}

theorem Segment.unique
    (h : Segment buf seg rest) (h' : Segment buf seg' rest') :
    seg = seg' ∧ rest = rest' := by
  have hpre : seg <+: buf := ⟨rest, h.buf_eq.symm⟩
  have hpre' : seg' <+: buf := ⟨rest', h'.buf_eq.symm⟩
  have hseg : seg = seg' := by
    rcases Nat.le_total seg.length seg'.length with hle | hle
    · exact h'.first seg (List.prefix_of_prefix_length_le hpre hpre' hle) h.ends
    · exact (h.first seg' (List.prefix_of_prefix_length_le hpre' hpre hle) h'.ends).symm
  subst hseg
  exact ⟨rfl, List.append_cancel_left (h.buf_eq.symm.trans h'.buf_eq)⟩

theorem Segment.length_rest_lt
    (h : Segment buf seg rest) :
    rest.length < buf.length := by
  have hle := h.ends.length_le
  have hfour : crlfcrlf.length = 4 := rfl
  rw [h.buf_eq, List.length_append]
  omega

/-- No occurrence stands in front of the one that `strstr` finds. -/
theorem le_of_strstr
    {hay needle : Bytes} {i j : Nat} (h : strstr hay needle = some i)
    (hj : needle <+: hay.drop j) :
    i ≤ j := by
  induction hay generalizing i j with
  | nil =>
      rw [strstr] at h
      split at h
      · cases h
        exact Nat.zero_le j
      · cases h
  | cons c hay ih =>
      rw [strstr] at h
      split at h
      · cases h
        exact Nat.zero_le j
      · rename_i hstart
        obtain ⟨k, hk, rfl⟩ := Option.map_eq_some_iff.mp h
        cases j with
        | zero => exact absurd (List.isPrefixOf_iff_prefix.mpr hj) hstart
        | succ j => exact Nat.succ_le_succ (ih hk hj)

theorem take_of_strstr
    {hay needle : Bytes} {i : Nat} (h : strstr hay needle = some i) :
    hay.take (i + needle.length) = hay.take i ++ needle := by
  rw [List.take_add, ← List.prefix_iff_eq_take.mp (prefix_drop_of_strstr h)]

/-- The start of a string. -/
theorem take_cString
    {b : Bytes} {n : Nat} (hn : n ≤ strlen b) :
    (cString b).take n = b.take n := by
  rw [← take_strlen b, List.take_take, Nat.min_eq_left hn]

theorem segment_of_httpCut
    (h : httpCut buf = some (seg, rest)) :
    Segment buf seg rest := by
  obtain ⟨hlong, i, hi, hle, rfl, rfl⟩ := httpCut_eq_some h
  have hlen : i + 4 ≤ strlen buf := strstr_le hi
  have htake := take_cString hlen
  have hends : buf.take (i + 4) = (cString buf).take i ++ crlfcrlf := by
    rw [← htake]
    exact take_of_strstr hi
  refine ⟨hlong, (List.take_append_drop _ _).symm, ?_, ⟨_, hends.symm⟩, ?_⟩
  · rw [← htake]
    exact fun hmem => zero_not_mem_cString buf (List.mem_of_mem_take hmem)
  · rintro early hearly ⟨front, rfl⟩
    have hpre : buf.take (i + 4) <+: cString buf := by
      rw [← htake]
      exact List.take_prefix _ _
    obtain ⟨back, hback⟩ := hearly.trans hpre
    have hfront : crlfcrlf <+: (cString buf).drop front.length := by
      rw [← hback, List.append_assoc, List.drop_left]
      exact List.prefix_append _ _
    have hle := le_of_strstr hi hfront
    refine hearly.eq_of_length_le ?_
    rw [List.length_take, List.length_append]
    change min (i + 4) buf.length ≤ front.length + 4
    omega

/-- `http_buf` takes the segment at the start of the buffer. -/
theorem httpCut_eq_some_iff :
    httpCut buf = some (seg, rest) ↔ Segment buf seg rest := by
  refine ⟨segment_of_httpCut, fun h => ?_⟩
  have hoccurs : crlfcrlf <:+: cString buf := by
    rw [h.buf_eq, cString_append_of_not_mem h.nulFree]
    exact h.ends.isInfix.trans (List.prefix_append _ _).isInfix
  obtain ⟨i, hi⟩ := Option.isSome_iff_exists.mp (isSome_strstr hoccurs)
  have hcut := httpCut_of_strstr h.long hi
  obtain ⟨rfl, rfl⟩ := h.unique (segment_of_httpCut hcut)
  exact hcut

theorem httpCut_eq_none_iff :
    httpCut buf = none ↔ ∀ seg rest, ¬Segment buf seg rest := by
  rw [Option.eq_none_iff_forall_ne_some]
  constructor
  · intro h seg rest hseg
    exact h (seg, rest) (httpCut_eq_some_iff.mpr hseg)
  · intro h p hp
    exact h p.1 p.2 (httpCut_eq_some_iff.mp hp)

end Segment

/-! ## The buffer in memory -/

/-- `recv_buf` and `recv_size`. -/
structure RecvBuf where
  bytes : Bytes
  size : Nat
  length_bytes : bytes.length = bufSize
  size_le : size ≤ bufOff1

/-- `memset`, and `memcpy` to the start of the buffer. -/
def fillBuf (w : Bytes) : Bytes :=
  splice (List.replicate bufSize 0) 0 w

theorem length_fillBuf
    {w : Bytes} (hw : w.length ≤ bufOff1) :
    (fillBuf w).length = bufSize := by
  simp only [bufOff1] at hw
  simp only [fillBuf, splice, bufSize, List.length_append, List.length_take, List.length_drop,
    List.length_replicate]
  omega

/-- The copy ends in a zero byte. -/
theorem fillBuf_eq
    {w : Bytes} (hw : w.length ≤ bufOff1) :
    fillBuf w = w ++ 0 :: List.replicate (bufOff1 - w.length) 0 := by
  simp only [bufOff1] at hw ⊢
  rw [fillBuf, splice, List.take_zero, List.nil_append, Nat.zero_add, List.drop_replicate,
    ← List.replicate_succ]
  congr 2
  simp only [bufSize]
  omega

namespace RecvBuf

/-- The bytes that were received. -/
def content (b : RecvBuf) : Bytes :=
  b.bytes.take b.size

theorem length_content
    (b : RecvBuf) :
    b.content.length = b.size := by
  have hlen := b.length_bytes
  have hle := b.size_le
  simp only [bufSize, bufOff1] at hlen hle
  rw [content, List.length_take]
  omega

/-- `node_clearRecvBuf` -/
def clear : RecvBuf where
  bytes := List.replicate bufSize 0
  size := 0
  length_bytes := List.length_replicate
  size_le := Nat.zero_le _

/-- What is behind `p_body` in the copy is moved to the front of the buffer. -/
def moveDown (b : RecvBuf) (recvBuf : Bytes) (pBody : Nat) : RecvBuf where
  bytes := fillBuf ((recvBuf.drop pBody).take (b.size - pBody))
  size := b.size - pBody
  length_bytes := by
    refine length_fillBuf ((List.length_take_le _ _).trans ?_)
    exact (Nat.sub_le _ _).trans b.size_le
  size_le := (Nat.sub_le _ _).trans b.size_le

/-- The part of `http_buf` that works on the buffer: the text that is parsed, and the buffer
behind the request. -/
def cut (b : RecvBuf) : Option (Bytes × RecvBuf) :=
  if b.size ≤ 14 then none
  else
    let recvBuf := fillBuf (b.bytes.take b.size)
    match strstr (cString recvBuf) crlfcrlf with
    | none => none
    | some i =>
        -- Keep one line end, and two zero bytes for the other one.
        let recvBuf := splice recvBuf i (crlf ++ [0, 0])
        let pBody := i + 4
        if b.size > pBody then some (cString recvBuf, b.moveDown recvBuf pBody)
        else some (cString recvBuf, clear)

theorem length_content_le
    (b : RecvBuf) :
    b.content.length ≤ bufOff1 := by
  rw [length_content]
  exact b.size_le

/-- The copy holds the same string. -/
theorem cString_fillBuf
    (b : RecvBuf) :
    cString (fillBuf b.content) = cString b.content := by
  rw [fillBuf_eq b.length_content_le, cString_append_zero]

/-- `http_buf` looks for the empty line in its copy. -/
theorem strstr_fillBuf
    (b : RecvBuf) :
    strstr (cString (fillBuf (b.bytes.take b.size))) crlfcrlf =
      strstr (cString b.content) crlfcrlf :=
  congrArg (strstr · crlfcrlf) b.cString_fillBuf

theorem cut_of_none
    {b : RecvBuf} (h : httpCut b.content = none) :
    b.cut = none := by
  rw [httpCut, length_content] at h
  rw [cut]
  split at h
  · rename_i hshort
    rw [if_pos hshort]
  · rename_i hlong
    rw [if_neg hlong]
    dsimp only
    rw [strstr_fillBuf]
    cases hi : strstr (cString b.content) crlfcrlf with
    | none =>
        rfl
    | some i =>
        rw [hi] at h
        cases h

/-- In the copy the text of the request ends in front of the two zero bytes. -/
theorem cString_patched
    {b : RecvBuf} {i : Nat} (hi : strstr (cString b.content) crlfcrlf = some i) :
    cString (splice (fillBuf b.content) i (crlf ++ [0, 0])) =
      requestText (b.content.take (i + 4)) := by
  have hlen : i + 4 ≤ strlen b.content := strstr_le hi
  have hle : i + 4 ≤ b.content.length := hlen.trans (cString_length_le _)
  have hfront := take_cString (show i ≤ strlen b.content by omega)
  have hzero : (0 : UInt8) ∉ b.content.take i := by
    rw [← hfront]
    exact fun hmem => zero_not_mem_cString _ (List.mem_of_mem_take hmem)
  have hcopy : (fillBuf b.content).take i = b.content.take i := by
    rw [fillBuf_eq b.length_content_le, List.take_append_of_le_length (by omega)]
  have htext : requestText (b.content.take (i + 4)) = b.content.take i ++ crlf := by
    have hends : b.content.take (i + 4) = b.content.take i ++ crlfcrlf := by
      rw [← take_cString hlen, ← hfront]
      exact take_of_strstr hi
    rw [requestText, hends, crlfcrlf, ← List.append_assoc, List.length_append]
    exact List.take_left' (by simp [crlf])
  rw [htext, splice, hcopy, List.append_assoc, cString_append_of_not_mem hzero]
  rfl

/-- Behind the request the copy is as it was. -/
theorem drop_patched
    {b : RecvBuf} {i : Nat} (hle : i + 4 ≤ b.size) :
    ((splice (fillBuf b.content) i (crlf ++ [0, 0])).drop (i + 4)).take (b.size - (i + 4)) =
      b.content.drop (i + 4) := by
  have hcontent := b.length_content
  have hfill := length_fillBuf b.length_content_le
  have hsize := b.size_le
  simp only [bufSize] at hfill
  simp only [bufOff1] at hsize
  have hfront : ((fillBuf b.content).take i ++ (crlf ++ [0, 0])).length = i + 4 := by
    rw [List.length_append, List.length_take]
    change min i (fillBuf b.content).length + 4 = i + 4
    omega
  rw [splice, List.drop_left' hfront, fillBuf_eq b.length_content_le,
    List.drop_append_of_le_length (by change i + 4 ≤ _; omega),
    List.take_append_of_le_length (by rw [List.length_drop]; change _ ≤ _ - (i + 4); omega)]
  exact List.take_of_length_le (by rw [List.length_drop]; change _ - (i + 4) ≤ _; omega)

theorem cut_of_some
    {b : RecvBuf} {seg rest : Bytes} (h : httpCut b.content = some (seg, rest)) :
    ∃ b', b.cut = some (requestText seg, b') ∧ b'.content = rest := by
  obtain ⟨hlong, i, hi, hle, rfl, rfl⟩ := httpCut_eq_some h
  rw [length_content] at hlong hle
  have htext := cString_patched hi
  rw [cut, if_neg (by omega)]
  dsimp only
  rw [strstr_fillBuf, hi]
  dsimp only
  rw [← htext]
  split
  · refine ⟨_, rfl, ?_⟩
    have hdrop := drop_patched hle
    have hshort : (b.content.drop (i + 4)).length = b.size - (i + 4) := by
      rw [List.length_drop, length_content]
    change (fillBuf (((splice (fillBuf b.content) i (crlf ++ [0, 0])).drop (i + 4)).take
      (b.size - (i + 4)))).take (b.size - (i + 4)) = _
    rw [hdrop, fillBuf_eq (by have := b.size_le; omega)]
    exact List.take_left' hshort
  · refine ⟨_, rfl, ?_⟩
    rw [List.drop_eq_nil_of_le (by rw [length_content]; omega)]
    rfl

end RecvBuf
/-! ## The recursion -/

/-- `TCP_NODE` with its buffer in memory. -/
structure MemNode where
  buf : RecvBuf
  keepalive : Keepalive
  pipeline : Pipeline
  response : List Response

/-- The connection that the node stands for. -/
def MemNode.toNode (m : MemNode) : TcpNode where
  recvBuf := m.buf.content
  recv_le := m.buf.length_content_le
  keepalive := m.keepalive
  pipeline := m.pipeline
  response := m.response

/-- The node after a request that was parsed behind this buffer. -/
def MemNode.answered (buf : RecvBuf) (n : TcpNode) : MemNode where
  buf := buf
  keepalive := n.keepalive
  pipeline := n.pipeline
  response := n.response

/-- `http_buf` and `http_read`, on the buffer in memory. -/
def httpBufMemLoop (host : Host) : Nat → Server → MemNode → Server × MemNode
  | 0, srv, m => (srv, m)
  | fuel + 1, srv, m =>
      match m.buf.cut with
      | none => (srv, m)
      | some (text, buf) =>
          let served := httpRequest host srv { m with buf := buf }.toNode text
          let m := MemNode.answered buf served.2
          if m.pipeline ≠ .shutdown ∧ m.buf.size > 0 then httpBufMemLoop host fuel served.1 m
          else (served.1, m)

/-- The requests that are parsed one after the other, with `recv_size` at each call of
`http_buf` and at the end. -/
inductive Drains (host : Host) : Server → TcpNode → List Bytes → List Nat → Server → TcpNode → Prop
  | stop {srv : Server} {n : TcpNode}
      (hnone : ∀ seg rest, ¬Segment n.recvBuf seg rest) :
      Drains host srv n [] [n.recvBuf.length] srv n
  | last {srv srv' : Server} {n n' : TcpNode} {seg rest : Bytes}
      (hseg : Segment n.recvBuf seg rest)
      (hrequest : httpRequest host srv (n.dropRecv seg.length) (requestText seg) = (srv', n'))
      (hshutdown : n'.pipeline = .shutdown) :
      Drains host srv n [seg] [n.recvBuf.length, n'.recvBuf.length] srv' n'
  | next {srv srv₁ srv' : Server} {n n₁ n' : TcpNode} {seg rest : Bytes} {segs : List Bytes}
      {sizes : List Nat}
      (hseg : Segment n.recvBuf seg rest)
      (hrequest : httpRequest host srv (n.dropRecv seg.length) (requestText seg) = (srv₁, n₁))
      (hpipeline : n₁.pipeline ≠ .shutdown)
      (hrest : Drains host srv₁ n₁ segs sizes srv' n') :
      Drains host srv n (seg :: segs) (n.recvBuf.length :: sizes) srv' n'

section Drains

variable {host : Host} {srv srv' : Server} {n n' : TcpNode} {segs : List Bytes} {sizes : List Nat}

/-! ### The parser and the buffer -/

/-- The function leaves the buffer alone. -/
def KeepsRecv (g : TcpNode → TcpNode) : Prop :=
  ∀ n, (g n).recvBuf = n.recvBuf

theorem keepsRecv_httpPart
    (r : Response) :
    KeepsRecv (httpPart · r) := by
  intro n
  dsimp only
  rw [httpPart]
  split <;> rfl

theorem keepsRecv_httpReadSimple
    (filename lastmodified : Bytes) (filesize : Nat) (keepalive mimetype range : Bytes) :
    KeepsRecv (httpReadSimple host · filename lastmodified filesize keepalive mimetype range) := by
  intro n
  dsimp only [httpReadSimple]
  split
  · rfl
  split
  · rfl
  split <;> rfl

theorem keepsRecv_httpReadComplex
    (f : RangeFile) (lastmodified keepalive range : Bytes) :
    KeepsRecv (httpReadComplex host · f lastmodified keepalive range) := by
  intro n
  dsimp only [httpReadComplex]
  split
  · rfl
  split
  · rfl
  split
  · rfl
  split <;> rfl

theorem httpReadFile_recvBuf
    (srv : Server) (n : TcpNode) (head : Option (Hash Bytes)) (filename keepalive : Bytes) :
    (httpReadFile host srv n head filename keepalive).2.recvBuf = n.recvBuf := by
  rw [httpReadFile]
  dsimp only
  split
  · split
    · rw [httpBody]
      split
      · exact keepsRecv_httpPart _ n
      · exact (keepsRecv_httpPart _ _).trans (keepsRecv_httpPart _ n)
    split
    · exact keepsRecv_httpReadComplex _ _ _ _ n
    · exact keepsRecv_httpReadSimple _ _ _ _ _ _ n
  · exact keepsRecv_httpPart _ n

theorem httpRequest_recvBuf
    (srv : Server) (n : TcpNode) (text : Bytes) :
    (httpRequest host srv n text).2.recvBuf = n.recvBuf := by
  rw [httpRequest]
  split
  · rfl
  rw [httpRead]
  split
  · split
    · split
      · rfl
      dsimp only
      split
      · exact keepsRecv_httpPart _ _
      · exact httpReadFile_recvBuf _ _ _ _ _
    · rfl
  · rfl

/-! ### One call -/

theorem dropRecv_recvBuf
    {seg rest : Bytes} (hseg : Segment n.recvBuf seg rest) :
    (n.dropRecv seg.length).recvBuf = rest := by
  change n.recvBuf.drop seg.length = rest
  rw [hseg.buf_eq, List.drop_left]

theorem recvBuf_of_request
    {seg rest : Bytes} (hseg : Segment n.recvBuf seg rest)
    (hrequest : httpRequest host srv (n.dropRecv seg.length) (requestText seg) = (srv', n')) :
    n'.recvBuf = rest := by
  have hrecv := @httpRequest_recvBuf host srv (n.dropRecv seg.length) (requestText seg)
  rwa [hrequest, dropRecv_recvBuf hseg] at hrecv

theorem toNode_behind
    {m : MemNode} {b : RecvBuf} {seg rest : Bytes} (hseg : Segment m.toNode.recvBuf seg rest)
    (hb : b.content = rest) :
    ({ m with buf := b } : MemNode).toNode = m.toNode.dropRecv seg.length := by
  have hdrop : b.content = m.buf.content.drop seg.length :=
    hb.trans (dropRecv_recvBuf hseg).symm
  simp only [MemNode.toNode, TcpNode.dropRecv, hdrop]

theorem toNode_answered
    {b : RecvBuf} (hb : b.content = n.recvBuf) :
    (MemNode.answered b n).toNode = n := by
  simp only [MemNode.toNode, MemNode.answered, hb]

theorem httpBufMemLoop_of_none
    {m : MemNode} (fuel : Nat) (h : ∀ seg rest, ¬Segment m.toNode.recvBuf seg rest) :
    httpBufMemLoop host fuel srv m = (srv, m) := by
  cases fuel with
  | zero => rfl
  | succ fuel =>
      rw [httpBufMemLoop, RecvBuf.cut_of_none (httpCut_eq_none_iff.mpr h)]

theorem not_segment_of_size_eq_zero
    {m : MemNode} (h : m.buf.size = 0) (seg rest : Bytes) :
    ¬Segment m.toNode.recvBuf seg rest := by
  intro hseg
  have hlong := hseg.long
  change 14 < m.buf.content.length at hlong
  rw [RecvBuf.length_content, h] at hlong
  exact absurd hlong (by decide)

/-- One request: what stands behind it is in the buffer, and the functions go on there. -/
theorem exists_answered
    {m : MemNode} {seg rest : Bytes} (hseg : Segment m.toNode.recvBuf seg rest)
    (srv : Server) :
    ∃ srv₁ m₁, httpRequest host srv (m.toNode.dropRecv seg.length) (requestText seg) =
        (srv₁, m₁.toNode) ∧ m₁.toNode.recvBuf = rest ∧
      ∀ fuel, httpBufMemLoop host (fuel + 1) srv m =
        if m₁.pipeline = .shutdown then (srv₁, m₁) else httpBufMemLoop host fuel srv₁ m₁ := by
  obtain ⟨b, hcut, hb⟩ := RecvBuf.cut_of_some (httpCut_eq_some_iff.mpr hseg)
  obtain ⟨served, hserved⟩ : ∃ served,
      httpRequest host srv (m.toNode.dropRecv seg.length) (requestText seg) = served := ⟨_, rfl⟩
  have hrecv : served.2.recvBuf = rest := by
    rw [← hserved, httpRequest_recvBuf, dropRecv_recvBuf hseg]
  have hnode := toNode_answered (hb.trans hrecv.symm)
  refine ⟨served.1, MemNode.answered b served.2, ?_, ?_, fun fuel => ?_⟩
  · rw [hserved, hnode]
  · rw [hnode, hrecv]
  · rw [httpBufMemLoop, hcut]
    dsimp only
    rw [toNode_behind hseg hb, hserved]
    rcases eq_or_ne (MemNode.answered b served.2).pipeline .shutdown with hshutdown | hrunning
    · rw [if_pos hshutdown, if_neg fun h => h.1 hshutdown]
    · rw [if_neg hrunning]
      rcases Nat.eq_zero_or_pos (MemNode.answered b served.2).buf.size with hzero | hpos
      · rw [if_neg fun h => absurd hzero (Nat.ne_of_gt h.2),
          httpBufMemLoop_of_none fuel (not_segment_of_size_eq_zero hzero)]
      · rw [if_pos ⟨hrunning, hpos⟩]

/-! ### The whole run -/

/-- The recursion ends, with this run. -/
theorem exists_drains
    (srv : Server) (m : MemNode) :
    ∃ segs sizes srv' m', Drains host srv m.toNode segs sizes srv' m'.toNode ∧
      ∀ fuel, m.buf.size < fuel → httpBufMemLoop host fuel srv m = (srv', m') := by
  generalize hsize : m.buf.size = size
  induction size using Nat.strong_induction_on generalizing srv m with
  | _ size ih =>
      by_cases hnone : ∀ seg rest, ¬Segment m.toNode.recvBuf seg rest
      · exact ⟨[], _, srv, m, .stop hnone, fun fuel _ => httpBufMemLoop_of_none fuel hnone⟩
      push Not at hnone
      obtain ⟨seg, rest, hseg⟩ := hnone
      obtain ⟨srv₁, m₁, hrequest, hrest, hloop⟩ := @exists_answered host m seg rest hseg srv
      have hlt : m₁.buf.size < size := by
        have hlen := hseg.length_rest_lt
        rw [← hrest] at hlen
        change m₁.buf.content.length < m.buf.content.length at hlen
        rwa [RecvBuf.length_content, RecvBuf.length_content, hsize] at hlen
      by_cases hshutdown : m₁.pipeline = .shutdown
      · refine ⟨[seg], _, srv₁, m₁, .last hseg hrequest hshutdown, fun fuel hfuel => ?_⟩
        obtain ⟨fuel, rfl⟩ := Nat.exists_eq_add_of_le' (Nat.one_le_of_lt hfuel)
        rw [hloop, if_pos hshutdown]
      · obtain ⟨segs, sizes, srv', m', hdrains, hmem⟩ := ih m₁.buf.size hlt srv₁ m₁ rfl
        refine ⟨seg :: segs, _, srv', m', .next hseg hrequest hshutdown hdrains,
          fun fuel hfuel => ?_⟩
        obtain ⟨fuel, rfl⟩ := Nat.exists_eq_add_of_le' (Nat.one_le_of_lt hfuel)
        rw [hloop, if_neg hshutdown, hmem fuel (by omega)]

/-- Nothing but the segments leaves the buffer. -/
theorem Drains.recvBuf_eq
    (h : Drains host srv n segs sizes srv' n') :
    n.recvBuf = segs.flatten ++ n'.recvBuf := by
  induction h with
  | stop hnone => rfl
  | last hseg hrequest hshutdown =>
      rw [recvBuf_of_request hseg hrequest, List.flatten_singleton]
      exact hseg.buf_eq
  | next hseg hrequest hpipeline hrest ih =>
      rw [List.flatten_cons, List.append_assoc, ← ih, recvBuf_of_request hseg hrequest]
      exact hseg.buf_eq

/-- `recv_size` decreases from call to call. -/
theorem Drains.sizes_decreasing
    (h : Drains host srv n segs sizes srv' n') :
    sizes.Pairwise (· > ·) ∧ ∀ size ∈ sizes, size ≤ n.recvBuf.length := by
  induction h with
  | stop hnone => simp
  | last hseg hrequest hshutdown =>
      have hlt := hseg.length_rest_lt
      rw [← recvBuf_of_request hseg hrequest] at hlt
      simpa using ⟨hlt, hlt.le⟩
  | next hseg hrequest hpipeline hrest ih =>
      have hlt := hseg.length_rest_lt
      rw [← recvBuf_of_request hseg hrequest] at hlt
      refine ⟨List.pairwise_cons.mpr ⟨fun size hmem => ?_, ih.1⟩, ?_⟩
      · exact (ih.2 size hmem).trans_lt hlt
      · exact List.forall_mem_cons.mpr
          ⟨Nat.le_refl _, fun size hmem => (ih.2 size hmem).trans hlt.le⟩

/-- The run ends at a request that closes the connection, or where there is no segment. -/
theorem Drains.stops
    (h : Drains host srv n segs sizes srv' n') :
    n'.pipeline = .shutdown ∨ ∀ seg rest, ¬Segment n'.recvBuf seg rest := by
  induction h with
  | stop hnone => exact .inr hnone
  | last hseg hrequest hshutdown => exact .inl hshutdown
  | next hseg hrequest hpipeline hrest ih => exact ih

/-- The model on lists of bytes goes through the same run. -/
theorem Drains.httpBufLoop_eq
    (h : Drains host srv n segs sizes srv' n') {fuel : Nat} (hfuel : n.recvBuf.length < fuel) :
    httpBufLoop host fuel srv n = (srv', n') := by
  induction h generalizing fuel with
  | stop hnone => exact httpBufLoop_of_none fuel _ (httpCut_eq_none_iff.mpr hnone)
  | last hseg hrequest hshutdown =>
      obtain ⟨fuel, rfl⟩ := Nat.exists_eq_add_of_le' (Nat.one_le_of_lt hfuel)
      rw [httpBufLoop_of_some fuel _ (httpCut_eq_some_iff.mpr hseg), hrequest]
      exact if_pos hshutdown
  | next hseg hrequest hpipeline hrest ih =>
      obtain ⟨fuel, rfl⟩ := Nat.exists_eq_add_of_le' (Nat.one_le_of_lt hfuel)
      rw [httpBufLoop_of_some fuel _ (httpCut_eq_some_iff.mpr hseg), hrequest]
      have hlt := hseg.length_rest_lt
      rw [← recvBuf_of_request hseg hrequest] at hlt
      exact (if_neg hpipeline).trans (ih (by omega))

/-- What `http_buf` does to a connection: it takes these segments. -/
structure BufDrained (host : Host) (srv : Server) (m : MemNode) (segs : List Bytes)
    (sizes : List Nat) (srv' : Server) (m' : MemNode) : Prop where
  run : Drains host srv m.toNode segs sizes srv' m'.toNode
  ends : ∀ fuel, m.buf.size < fuel → httpBufMemLoop host fuel srv m = (srv', m')
  decreasing : sizes.Pairwise (· > ·)
  content : m.buf.content = segs.flatten ++ m'.buf.content
  stops : m'.pipeline = .shutdown ∨ ∀ seg rest, ¬Segment m'.buf.content seg rest
  httpBuf_eq : httpBuf host srv m.toNode = (srv', m'.toNode)

/-- Whatever is in the buffer, the recursion ends and takes the segments in order. -/
theorem exists_bufDrained
    (host : Host) (srv : Server) (m : MemNode) :
    ∃ segs sizes srv' m', BufDrained host srv m segs sizes srv' m' := by
  obtain ⟨segs, sizes, srv', m', hrun, hends⟩ := @exists_drains host srv m
  exact ⟨segs, sizes, srv', m', hrun, hends, hrun.sizes_decreasing.1, hrun.recvBuf_eq, hrun.stops,
    hrun.httpBufLoop_eq (Nat.lt_succ_self _)⟩

end Drains
end Torrentkino
