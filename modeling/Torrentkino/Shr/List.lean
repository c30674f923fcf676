import Torrentkino.Lib.Chain
import Torrentkino.Lib.Simulation
import Torrentkino.Shr.Config

/-!
# `shr/list.c`

The doubly linked list every container of the program is built from.  The list
header names one of the items, not necessarily the first: `list_start` walks
back from there and `list_stop` walks forth, and `list_ins` in front of the
first item leaves the header where it is.

An access to a freed item is a fault.  `list_del` frees its item and then calls
`list_start`, so whether it returns depends on the item the header names.

`ItemSeq` is the abstract sequence, `Represents` its relation to a list on the
heap.  `ListRefine` shows which sequences of calls keep it.
-/

namespace Torrentkino

open Chain Decimal

/-- `struct obj_item` -/
abbrev ObjItem (α : Type) := Link α

/-- `struct obj_list`, together with the heap its items live on. -/
structure ObjList (α : Type) where
  heap : Heap (ObjItem α)
  item : Option Ref
  size : Int

section Operations

variable {α : Type}

/-- `list_init` -/
def listInit : ObjList α where
  heap := .empty
  item := none
  size := 0

/-- `list_start`: the header moves to the item that is returned. -/
def listStart (list : ObjList α) : Except Fault (Option Ref × ObjList α) :=
  match list.item with
  | none => .ok (none, list)
  | some item => do
      let start ← walkBack list.heap (list.heap.fresh + 1) item
      .ok (some start, { list with item := some start })

/-- `list_stop` -/
def listStop (list : ObjList α) : Except Fault (Option Ref) :=
  match list.item with
  | none => .ok none
  | some item => some <$> walkForth list.heap (list.heap.fresh + 1) item

/-- `list_put` -/
def listPut (list : ObjList α) (payload : α) :
    Except Fault (Option Ref × ObjList α) :=
  if list.size = longMax then
    .ok (none, list)
  else
    let item := list.heap.fresh
    match list.item with
    | none =>
        .ok (some item,
          { heap := list.heap.alloc ⟨payload, none, none⟩
            item := some item
            size := 1 })
    | some _ => do
        let stop ← listStop list
        let heap := list.heap.alloc ⟨payload, none, stop⟩
        let heap ← storeNext heap stop (some item)
        .ok (some item, { list with heap := heap, size := list.size + 1 })

/-- `list_ins`: a new item in front of `here`. -/
def listIns (list : ObjList α) (here : Option Ref) (payload : α) :
    Except Fault (Option Ref × ObjList α) :=
  if list.size = longMax then
    .ok (none, list)
  else if list.size = 0 then
    listPut list payload
  else do
    let item := list.heap.fresh
    let prev := (← deref list.heap here).prev
    let heap := list.heap.alloc ⟨payload, here, prev⟩
    let heap ← storePrev heap here (some item)
    let heap ← if prev.isSome then storeNext heap prev (some item) else .ok heap
    .ok (some item, { list with heap := heap, size := list.size + 1 })

/-- `list_add`: a new item behind `here`. -/
def listAdd (list : ObjList α) (here : Option Ref) (payload : α) :
    Except Fault (Option Ref × ObjList α) :=
  if list.size = longMax then
    .ok (none, list)
  else if list.size = 0 then
    listPut list payload
  else do
    let item := list.heap.fresh
    let next := (← deref list.heap here).next
    let heap := list.heap.alloc ⟨payload, next, here⟩
    let heap ← storeNext heap here (some item)
    let heap ← if next.isSome then storePrev heap next (some item) else .ok heap
    .ok (some item, { list with heap := heap, size := list.size + 1 })

/-- The four cases of `list_del`: how an item is unhooked from its neighbours,
and what becomes of the header. -/
def listUnhook (list : ObjList α) (next prev : Option Ref) :
    Except Fault (Heap (ObjItem α) × Option Ref) :=
  match next, prev with
  | none, none => .ok (list.heap, none)
  | none, some _ => do
      let heap ← storeNext list.heap prev none
      .ok (heap, list.item)
  | some _, none => do
      let heap ← storePrev list.heap next none
      .ok (heap, next)
  | some _, some _ => do
      let heap ← storeNext list.heap prev next
      let heap ← storePrev heap next prev
      .ok (heap, list.item)

/-- `list_del` -/
def listDel (list : ObjList α) :
    Option Ref → Except Fault (Option Ref × ObjList α)
  | none => .ok (none, list)
  | some item => do
      let cell ← deref list.heap (some item)
      let (heap, cursor) ← listUnhook list cell.next cell.prev
      listStart
        { heap := heap.free item
          item := cursor
          size := list.size - 1 }

/-- `list_rotate`: the first item becomes the last one. -/
def listRotate (list : ObjList α) : Except Fault (ObjList α) :=
  if list.size ≤ 1 then
    .ok list
  else do
    let (start, list) ← listStart list
    let stop ← listStop list
    let next := (← deref list.heap start).next
    let heap ← storePrev list.heap next none
    let heap ← storeNext heap start none
    let heap ← storePrev heap start stop
    let heap ← storeNext heap stop start
    .ok { list with heap := heap, item := next }

end Operations

/-- A call of one of the operations. -/
inductive ListOp (α : Type) where
  | put (payload : α)
  | ins (here : Option Ref) (payload : α)
  | add (here : Option Ref) (payload : α)
  | del (item : Option Ref)
  | rotate
  | start
  | stop

/-- The list after a call. -/
def listStep {α : Type} (list : ObjList α) : ListOp α → Except Fault (ObjList α)
  | .put payload => Prod.snd <$> listPut list payload
  | .ins here payload => Prod.snd <$> listIns list here payload
  | .add here payload => Prod.snd <$> listAdd list here payload
  | .del item => Prod.snd <$> listDel list item
  | .rotate => listRotate list
  | .start => Prod.snd <$> listStart list
  | .stop => (fun _ => list) <$> listStop list

/-! ## The abstract sequence

A sequence of payloads, each under the identity of its item; the operations
name their place in the sequence by such an identity. -/

/-- An abstract sequence and the identity of the next item. -/
structure ItemSeq (α : Type) where
  items : List (Ref × α)
  fresh : Ref

namespace ItemSeq

variable {α : Type}

/-- The empty sequence. -/
def init : ItemSeq α := ⟨[], 0⟩

/-- Insert in front of an item. -/
def insertBefore (here : Ref) (new : Ref × α) : List (Ref × α) → List (Ref × α)
  | [] => []
  | x :: xs =>
      if x.1 = here then new :: x :: xs else x :: insertBefore here new xs

/-- Insert behind an item. -/
def insertBehind (here : Ref) (new : Ref × α) : List (Ref × α) → List (Ref × α)
  | [] => []
  | x :: xs =>
      if x.1 = here then x :: new :: xs else x :: insertBehind here new xs

/-- Remove an item. -/
def remove (item : Ref) (xs : List (Ref × α)) : List (Ref × α) :=
  xs.filter fun x => x.1 ≠ item

/-- Move the first item to the end. -/
def rotated : List (Ref × α) → List (Ref × α)
  | [] => []
  | x :: xs => xs ++ [x]

/-- A new item, unless the sequence is as long as `LONG_MAX`. -/
def grow (q : ItemSeq α) (payload : α)
    (place : Ref × α → List (Ref × α) → List (Ref × α)) : ItemSeq α :=
  if (q.items.length : Int) = longMax then q
  else ⟨place (q.fresh, payload) q.items, q.fresh + 1⟩

/-- Insertion next to an item; into the empty sequence there is only one way. -/
def growAt (q : ItemSeq α) (payload : α) (here : Option Ref)
    (place : Ref → Ref × α → List (Ref × α) → List (Ref × α)) : ItemSeq α :=
  match q.items, here with
  | [], _ => grow q payload fun new xs => xs ++ [new]
  | _ :: _, none => q
  | _ :: _, some r => grow q payload (place r)

/-- The sequence after an operation. -/
def step (q : ItemSeq α) : ListOp α → ItemSeq α
  | .put payload => q.grow payload fun new xs => xs ++ [new]
  | .ins here payload => q.growAt payload here insertBefore
  | .add here payload => q.growAt payload here insertBehind
  | .del none => q
  | .del (some r) => { q with items := remove r q.items }
  | .rotate => { q with items := rotated q.items }
  | .start => q
  | .stop => q

/-- The arguments of an operation name items of the sequence.  `list_ins` and
`list_add` do not look at `here` when the list is empty, and `list_del` accepts
`NULL`. -/
def Names (q : ItemSeq α) : ListOp α → Prop
  | .ins here _ => q.items = [] ∨ ∃ r ∈ refs q.items, here = some r
  | .add here _ => q.items = [] ∨ ∃ r ∈ refs q.items, here = some r
  | .del item => item = none ∨ ∃ r ∈ refs q.items, item = some r
  | _ => True

end ItemSeq

/-- A list represents a sequence: its items form one doubly linked chain with
these identities and payloads, `size` counts them, and the header names one of
them unless there is none. -/
structure Represents {α : Type} (list : ObjList α) (q : ItemSeq α) : Prop where
  chain : Segment list.heap none q.items none
  nodup : (refs q.items).Nodup
  size_eq : list.size = q.items.length
  item_none : list.item = none ↔ q.items = []
  item_mem : ∀ r, list.item = some r → r ∈ refs q.items
  fresh_eq : list.heap.fresh = q.fresh

/-- A call of `list_del` does not delete the item the header names while that
item has a predecessor. -/
def KeepsCursor {α : Type} (list : ObjList α) : ListOp α → Prop
  | .del (some r) =>
      list.item = some r →
        ∀ cell, list.heap.get r = some cell → cell.prev = none
  | _ => True

end Torrentkino
