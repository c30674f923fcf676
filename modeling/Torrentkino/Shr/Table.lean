import Torrentkino.Lib.Heap
import Torrentkino.Shr.Hash

/-!
# A list of objects with a hash

The stores of the daemon all have the same shape: heap objects in a `LIST`, and
a `HASH` for access by key.  Here `LIST` is the sequence of items it represents.
A reference is the identity of an `ITEM`, and the heap has the object that the
item holds.  An object that moves gets a new item, so that a reference to the
old one dangles.  Where nothing moves, an object has the same item all its life,
and the hash may refer to either.

Nothing in a table says that list and hash agree.  That is an invariant of the
store that uses it, and depends on the keys it puts in.
-/

namespace Torrentkino

open Memory

/-- A `LIST` of items with their objects, and a `HASH` from keys to the items. -/
structure Table (α : Type) where
  heap : Heap α
  list : List Ref
  hash : Hash Ref

namespace Table

variable {α : Type}

/-- `list_init` and `hash_init` -/
def init (capacity : Nat) (hpos : 0 < capacity) : Table α where
  heap := .empty
  list := []
  hash := hashInit capacity hpos

/-- `hash_get` -/
def find (t : Table α) (key : Bytes) : Option Ref :=
  hashGet t.hash key

/-- The object that `hash_get` refers to. -/
def lookup (t : Table α) (key : Bytes) : Option α :=
  (t.find key).bind t.heap.get

/-- The objects of the items, in the order of the list. -/
def objects (t : Table α) : List α :=
  t.list.filterMap t.heap.get

/-- A new object in front of the item at position `i` of the list (`list_ins`),
or at its end (`list_put`) if there is no such item, and in the hash. -/
def insert (t : Table α) (i : Nat) (key : Bytes) (a : α) : Table α where
  heap := t.heap.alloc a
  list := t.list.take i ++ t.heap.fresh :: t.list.drop i
  hash := (hashPut t.hash key (some t.heap.fresh)).2

/-- A new object at the end of the list and in the hash. -/
def append (t : Table α) (key : Bytes) (a : α) : Table α :=
  t.insert t.list.length key a

/-- The object leaves the hash and the list, and is freed with its item. -/
def remove (t : Table α) (r : Ref) (key : Bytes) : Table α where
  heap := t.heap.free r
  list := t.list.erase r
  hash := hashDel t.hash key

/-- The object `a` of the item `r` moves to the start of the list: `list_del`
frees the item, `list_ins` puts the object into a new one, and `hash_put`
registers that. -/
def toFront (t : Table α) (r : Ref) (key : Bytes) (a : α) : Table α where
  heap := (t.heap.free r).alloc a
  list := t.heap.fresh :: t.list.erase r
  hash := (hashPut t.hash key (some t.heap.fresh)).2

/-- An object is changed in place. -/
def modify (t : Table α) (r : Ref) (f : α → α) : Table α :=
  { t with heap := t.heap.modify r f }

@[simp] theorem heap_insert (t : Table α) (i : Nat) (key : Bytes) (a : α) :
    (t.insert i key a).heap = t.heap.alloc a := rfl

@[simp] theorem heap_append (t : Table α) (key : Bytes) (a : α) :
    (t.append key a).heap = t.heap.alloc a := rfl

@[simp] theorem heap_remove (t : Table α) (r : Ref) (key : Bytes) :
    (t.remove r key).heap = t.heap.free r := rfl

end Table
end Torrentkino
