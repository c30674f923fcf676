import Torrentkino.P2p.NodeUdp
import Torrentkino.P2p.Time
import Torrentkino.Shr.Str
import Torrentkino.Shr.Index

/-!
# `p2p/value.c`

The values that other nodes have announced: a list of targets, sorted by the
distance to the own node id, each with the nodes that announced it, the most
recent one first.

The address of an announcing node is passed by reference down to
`node_v_update`, which stores the announced port in it.  The functions on that
way therefore return the address as they leave it.
-/

namespace Torrentkino

open Memory

/-- `VALUE_SIZE_MAX` -/
def valueSizeMax : Nat := 50

/-- `TGT_V_SIZE_MAX` -/
def tgtVSizeMax : Nat := 10

/-- `NODE_V` -/
structure NodeV (v : Build) where
  id : NodeId
  pair : Pair v
  eol : Int
deriving DecidableEq, Repr

/-- The key of a node in the hash of its target. -/
def NodeV.key {v : Build} (n : NodeV v) : Bytes :=
  n.id.bytes

/-- `TARGET_V` -/
structure TargetV (v : Build) where
  target : NodeId
  nodes : Index (NodeV.key (v := v))

/-- The key of a target in the hash of the store. -/
def TargetV.key {v : Build} (t : TargetV v) : Bytes :=
  t.target.bytes

/-- `VALUE` -/
structure Value (v : Build) where
  targets : Index (TargetV.key (v := v))

section Value

variable {v : Build}

/-- `node_v_update`, which `node_v_init` consists of. -/
def nodeVUpdate (now : Int) (id : NodeId) (sa : Ip v) (port : Nat) : NodeV v × Ip v :=
  let sa := ipMergePortToSin sa port
  ({ id := id, pair := sa.pair, eol := timeAdd30Min now }, sa)

/-- `tgt_v_init` -/
def tgtVInit (target : NodeId) : TargetV v where
  target := target
  nodes := .init (tgtVSizeMax + 1) (by decide)

/-- `tgt_v_del` -/
def tgtVDel (t : TargetV v) (r : Ref) : TargetV v :=
  { t with nodes := t.nodes.remove r }

/-- Delete the last node if there are too many. -/
def tgtVLimit (t : TargetV v) : TargetV v :=
  if t.nodes.list.length > tgtVSizeMax then
    match t.nodes.list.getLast? with
    | none => t
    | some r => tgtVDel t r
  else t

/-- `tgt_v_find` -/
def tgtVFind (t : TargetV v) (id : NodeId) : Option Ref :=
  t.nodes.find id.bytes

/-- `tgt_v_put`, for a node that is not listed. -/
def tgtVPut (now : Int) (t : TargetV v) (id : NodeId) (sa : Ip v) (port : Nat)
    (hnew : tgtVFind t id = none) : TargetV v × Ip v :=
  let n := nodeVUpdate now id sa port
  (tgtVLimit { t with nodes := t.nodes.insert 0 n.1 hnew }, n.2)

/-- `tgt_v_update` -/
def tgtVUpdate (now : Int) (t : TargetV v) (id : NodeId) (sa : Ip v) (port : Nat) :
    TargetV v × Ip v :=
  match h : tgtVFind t id with
  | none => tgtVPut now t id sa port h
  | some r =>
      let n := nodeVUpdate now id sa port
      let nodes := t.nodes.modify r (fun _ => n.1) (by
        intro a ha
        obtain ⟨b, hb, hkey⟩ := (t.nodes.find_eq_some_iff _ _).mp h
        cases ha.symm.trans hb
        exact hkey.symm)
      ({ t with nodes := nodes.toFront r }, n.2)

/-- The node at a reference is past its end of life. -/
def tgtVOld (now : Int) (t : TargetV v) (r : Ref) : Bool :=
  (t.nodes.heap.get r).any fun n => now > n.eol

/-- `tgt_v_expire` -/
def tgtVExpire (now : Int) (t : TargetV v) : TargetV v :=
  t.nodes.list.foldl (fun t r => if tgtVOld now t r then tgtVDel t r else t) t

/-- The functions on a target leave its identifier alone. -/
@[simp] theorem target_tgtVLimit (t : TargetV v) : (tgtVLimit t).target = t.target := by
  rw [tgtVLimit]
  split
  · split <;> rfl
  · rfl

@[simp] theorem target_tgtVUpdate
    (now : Int) (t : TargetV v) (id : NodeId) (sa : Ip v) (port : Nat) :
    (tgtVUpdate now t id sa port).1.target = t.target := by
  rw [tgtVUpdate]
  split
  · simp [tgtVPut]
  · rfl

@[simp] theorem target_tgtVExpire (now : Int) (t : TargetV v) :
    (tgtVExpire now t).target = t.target := by
  rw [tgtVExpire]
  generalize t.nodes.list = l
  induction l generalizing t with
  | nil =>
      rfl
  | cons r l ih =>
      rw [List.foldl_cons, ih]
      split <;> rfl

/-- `val_init` -/
def valInit : Value v where
  targets := .init (valueSizeMax + 1) (by decide)

/-- `val_find` -/
def valFind (s : Value v) (target : NodeId) : Option Ref :=
  s.targets.find target.bytes

/-- `val_del` -/
def valDel (s : Value v) (r : Ref) : Value v :=
  { s with targets := s.targets.remove r }

/-- Delete the last target if there are too many. -/
def valLimit (s : Value v) : Value v :=
  if s.targets.list.length > valueSizeMax then
    match s.targets.list.getLast? with
    | none => s
    | some r => valDel s r
  else s

/-- The target at a reference is farther from the own node id. -/
def valFarther (me : NodeId) (s : Value v) (target : NodeId) (r : Ref) : Bool :=
  (s.targets.heap.get r).any fun old =>
    strSha1Compare target.bytes old.target.bytes me.bytes < 0

/-- The position where `val_ins_sort` inserts a target: in front of the first
one that is farther, or at the end if there is room. -/
def valPosition (me : NodeId) (s : Value v) (target : NodeId) : Option Nat :=
  match s.targets.list.findIdx? (valFarther me s target) with
  | some i => some i
  | none =>
      if s.targets.list.length < valueSizeMax then some s.targets.list.length else none

/-- `val_ins_sort`, for a target that is not listed. -/
def valInsSort (me : NodeId) (s : Value v) (target : NodeId)
    (hnew : valFind s target = none) : Value v × Option Ref :=
  match valPosition me s target with
  | none => (valLimit s, none)
  | some i =>
      (valLimit { s with targets := s.targets.insert i (tgtVInit target) hnew },
        some s.targets.heap.fresh)

/-- `tgt_v_update` for the target at a reference. -/
def valUpdateAt (now : Int) (s : Value v) (r : Ref) (id : NodeId) (port : Nat)
    (sa : Ip v) : Value v × Ip v :=
  match h : s.targets.heap.get r with
  | none => (s, sa)
  | some t =>
      let u := tgtVUpdate now t id sa port
      let targets := s.targets.modify r (fun _ => u.1) (by
        intro a ha
        cases ha.symm.trans h
        rw [TargetV.key, TargetV.key, target_tgtVUpdate])
      ({ s with targets := targets }, u.2)

/-- `val_put`: the store, and the address as it is left. -/
def valPut (me : NodeId) (now : Int) (s : Value v) (target id : NodeId) (port : Nat)
    (sa : Ip v) : Value v × Ip v :=
  match h : valFind s target with
  | some r => valUpdateAt now s r id port sa
  | none =>
      match valInsSort me s target h with
      | (s, none) => (s, sa)
      | (s, some r) => valUpdateAt now s r id port sa

/-- One round of `val_expire`. -/
def valExpireTarget (now : Int) (s : Value v) (r : Ref) : Value v :=
  let targets := s.targets.modify r (tgtVExpire now) (by
    intro t _
    rw [TargetV.key, TargetV.key, target_tgtVExpire])
  let s := { s with targets := targets }
  if (s.targets.heap.get r).any fun t => t.nodes.list.length = 0 then valDel s r else s

/-- `val_expire` -/
def valExpire (now : Int) (s : Value v) : Value v :=
  s.targets.list.foldl (valExpireTarget now) s

/-- The pairs that `val_compact_list` copies. -/
def valCompactPairs (s : Value v) (target : NodeId) : List (Pair v) :=
  match s.targets.lookup target.bytes with
  | none => []
  | some t => (t.nodes.objects.take 8).map (·.pair)

/-- `val_compact_list` -/
def valCompactList (s : Value v) (target : NodeId) : Bytes :=
  (valCompactPairs s target).flatMap (·.bytes)

end Value
end Torrentkino
