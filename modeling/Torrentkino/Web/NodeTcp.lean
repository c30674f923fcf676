import Torrentkino.Lib.CString
import Torrentkino.Shr.File

/-!
# `web/response.c` and `web/node_tcp.c`

A connection has a receive buffer, a queue of response parts that are still to
be sent, and a state.  A part is a piece of memory or a range of a file; it is
put into the queue first and filled afterwards, so a pointer to it is its
position.
-/

namespace Torrentkino

open Memory CString

/-! ## Responses -/

/-- `RESPONSE`: what is left of it starts at the offset.  The last byte of a
range belongs to it. -/
inductive Response where
  | memory (sendBuf : Bytes) (sendOffset : Nat)
  | file (filename : Bytes) (fOffset fStop : Nat)
deriving DecidableEq, Repr

namespace Response

/-- A new part, `RESPONSE_FROM_MEMORY`. -/
def fromMemory : Response :=
  .memory [] 0

/-- A new part, `RESPONSE_FROM_FILE`. -/
def fromFile : Response :=
  .file [] 0 0

end Response

/-- The number of parts that still leaves room for one more. -/
def respLimit : Nat := 100

/-- `resp_put` -/
def respPut (list : List Response) (r : Response) : Option (List Response) :=
  if list.length > respLimit then none else some (list ++ [r])

/-- `vsnprintf` into a buffer of `BUF_SIZE` bytes. -/
def sendBuf (text : Bytes) : Bytes :=
  cString (text.take bufOff1)

/-- `resp_set_memory` on a part that nothing was sent of. -/
def respSetMemory (text : Bytes) : Response :=
  .memory (sendBuf text) 0

theorem respPut_of_le
    {list : List Response} (r : Response) (h : list.length ≤ respLimit) :
    respPut list r = some (list ++ [r]) :=
  if_neg (Nat.not_lt.mpr h)

theorem respPut_of_lt
    {list : List Response} (r : Response) (h : respLimit < list.length) :
    respPut list r = none :=
  if_pos h

/-! ## Connections -/

/-- `NODE_READY` and the other states of a connection. -/
inductive Pipeline where
  | ready
  | sendInit
  | sendData
  | sendStop
  | shutdown
deriving DecidableEq, Repr

/-- `HTTP_UNDEF`, `HTTP_CLOSE` and `HTTP_KEEPALIVE`. -/
inductive Keepalive where
  | undef
  | close
  | keepalive
deriving DecidableEq, Repr

/-- `TCP_NODE`.  The buffer is given by its first `recv_size` bytes; behind
them it is zero. -/
structure TcpNode where
  recvBuf : Bytes
  recv_le : recvBuf.length ≤ bufOff1
  keepalive : Keepalive
  pipeline : Pipeline
  response : List Response
deriving DecidableEq, Repr

/-- `node_put` -/
def nodePut : TcpNode where
  recvBuf := []
  recv_le := Nat.zero_le _
  keepalive := .undef
  pipeline := .ready
  response := []

/-- `node_status` -/
def nodeStatus (n : TcpNode) (status : Pipeline) : TcpNode :=
  { n with pipeline := status }

/-- `node_appendBuffer` -/
def nodeAppendBuffer (n : TcpNode) (buffer : Bytes) : TcpNode :=
  { n with
    recvBuf := n.recvBuf ++ buffer.take (bufOff1 - n.recvBuf.length)
    recv_le := by
      have := n.recv_le
      rw [List.length_append, List.length_take]
      omega }

/-- The buffer behind a request that was taken out of it. -/
def TcpNode.dropRecv (n : TcpNode) (size : Nat) : TcpNode :=
  { n with
    recvBuf := n.recvBuf.drop size
    recv_le := by
      have := n.recv_le
      rw [List.length_drop]
      omega }

theorem nodeAppendBuffer_recvBuf
    {n : TcpNode} {buffer : Bytes}
    (h : n.recvBuf.length + buffer.length ≤ bufOff1) :
    (nodeAppendBuffer n buffer).recvBuf = n.recvBuf ++ buffer := by
  simp only [nodeAppendBuffer]
  rw [List.take_of_length_le (by omega)]

end Torrentkino
