import Torrentkino.Lib.Heap
import Torrentkino.P2p.NodeUdp

/-!
# `p2p/bucket.c`

The buckets of the routing table: a list of buckets sorted by their
identifiers, each with the list of its nodes.  A bucket is responsible for the
identifiers from its own up to that of its successor.

The nodes themselves are heap objects: the lists hold references.  An item of
the bucket list is given by its position.  The list of buckets is never empty;
where the code would follow a null pointer on an empty one, the model finds
nothing.
-/

namespace Torrentkino

open Memory

/-- `BCKT_SIZE_MAX` -/
def bcktSizeMax : Nat := 20

/-- `BUCK` -/
structure Buck where
  id : NodeId
  nodes : List Ref
deriving DecidableEq, Repr

section Bucket

variable {v : Build}

/-- `bckt_init` -/
def bcktInit : List Buck :=
  [⟨.zero, []⟩]

/-- `bckt_find_best_match`: the position of the last bucket whose successor
is not beyond the identifier. -/
def bcktFindBestMatch : List Buck → NodeId → Nat
  | _ :: next :: rest, id =>
      if id.lt next.id then 0 else bcktFindBestMatch (next :: rest) id + 1
  | _, _ => 0

/-- The bucket at a position has nodes. -/
def hasNodes (l : List Buck) (i : Nat) : Bool :=
  l[i]?.any fun b => b.nodes ≠ []

/-- The loop of `bckt_find_any_match` towards the first bucket. -/
def bcktFindBefore (l : List Buck) : Nat → Option Nat
  | 0 => if hasNodes l 0 then some 0 else none
  | i + 1 => if hasNodes l (i + 1) then some (i + 1) else bcktFindBefore l i

/-- `bckt_find_any_match` -/
def bcktFindAnyMatch (l : List Buck) (id : NodeId) : Option Nat :=
  let i := bcktFindBestMatch l id
  if hasNodes l i then some i else bcktFindBefore l i

/-- The reference is to a node with this identifier. -/
def isNode (heap : Heap (UdpNode v)) (id : NodeId) (r : Ref) : Bool :=
  (heap.get r).any fun n => n.id = id

/-- `bckt_find_node` -/
def bcktFindNode (heap : Heap (UdpNode v)) (l : List Buck) (id : NodeId) :
    Option Ref :=
  match l[bcktFindBestMatch l id]? with
  | none => none
  | some b => b.nodes.find? (isNode heap id)

/-- Replace the nodes of the bucket at a position. -/
def setNodes (l : List Buck) (i : Nat) (f : List Ref → List Ref) : List Buck :=
  l.modify i fun b => { b with nodes := f b.nodes }

/-- `bckt_put`: the new list of buckets, or `none` for `FALSE`. -/
def bcktPut (heap : Heap (UdpNode v)) (l : List Buck) (r : Ref) (n : UdpNode v) :
    Option (List Buck) :=
  let i := bcktFindBestMatch l n.id
  match l[i]? with
  | none => none
  | some b =>
      if (bcktFindNode heap l n.id).isSome then none
      else if b.nodes.length ≥ bcktSizeMax then none
      else some (setNodes l i (· ++ [r]))

/-- `bckt_del` -/
def bcktDel (heap : Heap (UdpNode v)) (l : List Buck) (n : UdpNode v) : List Buck :=
  match bcktFindNode heap l n.id with
  | none => l
  | some r => setNodes l (bcktFindBestMatch l n.id) (·.erase r)

/-- The first loop of `bckt_significant_bit`: the last byte that is not zero,
among the first `n` bytes. -/
def lastNonzero (id : Bytes) : Nat → Option Nat
  | 0 => none
  | n + 1 => if id.getD n 0 ≠ 0 then some n else lastNonzero id n

/-- The second loop: the last bit that is set, among the first `n` bits. -/
def lastSetBit (c : UInt8) : Nat → Int
  | 0 => -1
  | n + 1 => if c &&& ((0x80 : UInt8) >>> UInt8.ofNat n) ≠ 0 then n else lastSetBit c n

/-- `bckt_significant_bit` -/
def bcktSignificantBit (id : NodeId) : Int :=
  match lastNonzero id.bytes 20 with
  | none => -1
  | some i => 8 * i + lastSetBit (id.bytes.getD i 0) 8

/-- `id[bit / 8] |= 0x80 >> (bit % 8)` -/
def NodeId.setBit (id : NodeId) (bit : Nat) : NodeId where
  bytes := id.bytes.modify (bit / 8) fun c => c ||| (0x80 : UInt8) >>> UInt8.ofNat (bit % 8)
  length_eq := by
    simp [id.length_eq]

/-- The larger of the significant bits of a bucket and of its successor, if
there is one. -/
def bcktDeepestBit (b : Buck) (next : Option Buck) : Int :=
  let bit1 := bcktSignificantBit b.id
  let bit2 := match next with
    | none => -1
    | some b => bcktSignificantBit b.id
  if bit1 ≥ bit2 then bit1 else bit2

/-- `bckt_compute_id` -/
def bcktComputeId (b : Buck) (next : Option Buck) : Option NodeId :=
  let bit := bcktDeepestBit b next + 1
  if bit ≥ 160 then none else some (b.id.setBit bit.toNat)

/-- One round of the loop in `bckt_split` that distributes the nodes. -/
def bcktReput (heap : Heap (UdpNode v)) (l : List Buck) (r : Ref) : List Buck :=
  match heap.get r with
  | none => l
  | some n => setNodes l (bcktFindBestMatch l n.id) (· ++ [r])

/-- `bckt_split`: the new list of buckets, or `none` for `FALSE`. -/
def bcktSplit (heap : Heap (UdpNode v)) (l : List Buck) (target : NodeId) :
    Option (List Buck) :=
  let i := bcktFindBestMatch l target
  match l[i]? with
  | none => none
  | some b =>
      if b.nodes.length ≤ 8 then none
      else
        match bcktComputeId b l[i + 1]? with
        | none => none
        | some idNew =>
            let l := l.take i ++ ⟨b.id, []⟩ :: ⟨idNew, []⟩ :: l.drop (i + 1)
            some (b.nodes.foldl (bcktReput heap) l)

/-- `bckt_split_loop`.  The fuel bounds the number of splits; running out of it
is a result of its own. -/
def bcktSplitLoop (heap : Heap (UdpNode v)) (target : NodeId) :
    Nat → List Buck → Option (List Buck)
  | 0, _ => none
  | fuel + 1, l =>
      match bcktSplit heap l target with
      | none => some l
      | some l => bcktSplitLoop heap target fuel l

/-- `bckt_is_empty` -/
def bcktIsEmpty (l : List Buck) : Bool :=
  l.all fun b => b.nodes = []

/-- The entry of a node in a compact list. -/
def nodeTriple (n : UdpNode v) : Bytes :=
  n.id.bytes ++ ipSinToTuple n.cAddr

/-- The loop of `bckt_compact_list`, with room for `room` more entries. -/
def bcktCompactLoop (heap : Heap (UdpNode v)) : List Ref → Nat → Bytes
  | [], _ => []
  | _ :: _, 0 => []
  | r :: nodes, room + 1 =>
      match heap.get r with
      | none => bcktCompactLoop heap nodes (room + 1)
      | some n =>
          if !nodeOk n then bcktCompactLoop heap nodes (room + 1)
          else nodeTriple n ++ bcktCompactLoop heap nodes room

/-- `bckt_compact_list` -/
def bcktCompactList (heap : Heap (UdpNode v)) (l : List Buck) (target : NodeId) :
    Bytes :=
  match (bcktFindAnyMatch l target).bind (l[·]?) with
  | none => []
  | some b => bcktCompactLoop heap b.nodes 8

/-- The first at most eight nodes of the chosen bucket that `node_ok` lets
pass. -/
def bcktCompactNodes (heap : Heap (UdpNode v)) (l : List Buck) (target : NodeId) :
    List (UdpNode v) :=
  match (bcktFindAnyMatch l target).bind (l[·]?) with
  | none => []
  | some b => ((b.nodes.filterMap heap.get).filter nodeOk).take 8

theorem bcktCompactLoop_eq (heap : Heap (UdpNode v)) (nodes : List Ref) (room : Nat) :
    bcktCompactLoop heap nodes room =
      (((nodes.filterMap heap.get).filter nodeOk).take room).flatMap nodeTriple := by
  induction nodes generalizing room with
  | nil =>
      simp [bcktCompactLoop]
  | cons r nodes ih =>
      cases room with
      | zero =>
          simp [bcktCompactLoop]
      | succ room =>
          rw [bcktCompactLoop]
          cases hr : heap.get r with
          | none =>
              simp [ih, hr]
          | some n =>
              cases hok : nodeOk n with
              | false =>
                  simp [ih, hr, hok]
              | true =>
                  simp [ih, hr, hok]

/-- The list has one entry for each of these nodes, in order. -/
theorem bcktCompactList_eq
    (heap : Heap (UdpNode v)) (l : List Buck) (target : NodeId) :
    bcktCompactList heap l target =
      (bcktCompactNodes heap l target).flatMap nodeTriple := by
  rw [bcktCompactList, bcktCompactNodes]
  cases (bcktFindAnyMatch l target).bind (l[·]?) with
  | none =>
      rfl
  | some b =>
      exact bcktCompactLoop_eq heap b.nodes 8

theorem bcktCompactNodes_length_le
    (heap : Heap (UdpNode v)) (l : List Buck) (target : NodeId) :
    (bcktCompactNodes heap l target).length ≤ 8 := by
  rw [bcktCompactNodes]
  split
  · exact Nat.zero_le _
  · exact List.length_take_le _ _

end Bucket
end Torrentkino
