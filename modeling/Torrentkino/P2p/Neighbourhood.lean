import Torrentkino.P2p.Bucket
import Torrentkino.Shr.Hash

/-!
# `p2p/neighbourhood.c`

The routing table: the buckets, and a hash for access by identifier.  Both
refer to the same node objects.
-/

namespace Torrentkino

/-- `NBHD` and the nodes it refers to. -/
structure Nbhd (v : Build) where
  heap : Heap (UdpNode v)
  bucket : List Buck
  hash : Hash Ref

section Nbhd

variable {v : Build}

/-- `nbhd_init` -/
def nbhdInit : Nbhd v where
  heap := .empty
  bucket := bcktInit
  hash := hashInit 4096 (by decide)

/-- `nbhd_put`, on the node with identifier `me`. -/
def nbhdPut (me : NodeId) (s : Nbhd v) (id : NodeId) (sa : Ip v) : Nbhd v :=
  if nodeMe me id then s
  else if ipIsLocalhost sa then s
  else
    match hashGet s.hash id.bytes with
    | some r => { s with heap := s.heap.modify r fun n => nodeUpdate n sa }
    | none =>
        let n := nodeInit id sa
        let r := s.heap.fresh
        let heap := s.heap.alloc n
        match bcktPut heap s.bucket r n with
        | none => { s with heap := heap.free r }
        | some bucket =>
            { heap := heap
              bucket := bucket
              hash := (hashPut s.hash n.id.bytes (some r)).2 }

/-- `nbhd_del` -/
def nbhdDel (s : Nbhd v) (r : Ref) : Nbhd v :=
  match s.heap.get r with
  | none => s
  | some n =>
      { heap := s.heap.free r
        bucket := bcktDel s.heap s.bucket n
        hash := hashDel s.hash n.id.bytes }

/-- `nbhd_pinged` -/
def nbhdPinged (s : Nbhd v) (id : NodeId) (time : Int) : Nbhd v :=
  match hashGet s.hash id.bytes with
  | none => s
  | some r => { s with heap := s.heap.modify r fun n => nodePinged n time }

/-- `nbhd_ponged` -/
def nbhdPonged (s : Nbhd v) (id : NodeId) (sa : Ip v) (time : Int) : Nbhd v :=
  match hashGet s.hash id.bytes with
  | none => s
  | some r => { s with heap := s.heap.modify r fun n => nodePonged n sa time }

/-- The node at a reference is bad. -/
def isBad (heap : Heap (UdpNode v)) (r : Ref) : Bool :=
  (heap.get r).any nodeBad

/-- The inner loop of `nbhd_expire`, over the nodes of one bucket. -/
def nbhdExpireNodes (s : Nbhd v) (nodes : List Ref) : Nbhd v :=
  nodes.foldl (fun s r => if isBad s.heap r then nbhdDel s r else s) s

/-- One round of the outer loop, for the bucket at position `i`. -/
def nbhdExpireBucket (s : Nbhd v) (i : Nat) : Nbhd v :=
  match s.bucket[i]? with
  | none => s
  | some b => nbhdExpireNodes s b.nodes

/-- `nbhd_expire` -/
def nbhdExpire (s : Nbhd v) : Nbhd v :=
  (List.range s.bucket.length).foldl nbhdExpireBucket s

/-- `nbhd_split`; `none` if 161 rounds of the loop are not enough. -/
def nbhdSplit (s : Nbhd v) (target : NodeId) : Option (Nbhd v) :=
  (bcktSplitLoop s.heap target 161 s.bucket).map fun bucket =>
    { s with bucket := bucket }

/-- `nbhd_is_empty` -/
def nbhdIsEmpty (s : Nbhd v) : Bool :=
  bcktIsEmpty s.bucket

end Nbhd
end Torrentkino
