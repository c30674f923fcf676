import Torrentkino.P2p.Lookup

/-!
# `p2p/transaction.c`

The queries that wait for replies.  Those of a lookup own the lookup.
-/

namespace Torrentkino

open Memory

/-- The `P2P_*` types of a transaction. -/
inductive TidType where
  | ping
  | pingMulticast
  | findNode
  | getPeers
  | announceStart
  | announceEngage
deriving DecidableEq, Repr

/-- `TID` -/
structure Tid where
  id : Bytes
  id_length : id.length = tidSize
  time : Int
  type : TidType
  lookup : Option Ref
deriving DecidableEq, Repr

/-- `struct obj_transaction`, and the lookups its items own. -/
structure Transaction (v : Build) where
  tids : Table Tid
  lookups : Heap (Lookup v)

section Transaction

variable {v : Build}

theorem tdb_capacity_pos : 0 < 1000 := by decide

/-- `tdb_init` -/
def tdbInit : Transaction v where
  tids := .init 1000 tdb_capacity_pos
  lookups := .empty

/-- `tdb_create_random_id` -/
def tdbCreateRandomId (s : Transaction v) (rnd : Random) : Bytes × Random :=
  randUnused (hashExists s.tids.hash) tidSize 999 rnd

/-- `tdb_put`: the item of the new transaction with its id. -/
def tdbPut (now : Int) (s : Transaction v) (type : TidType) (rnd : Random) :
    (Ref × Bytes) × Transaction v × Random :=
  let id := tdbCreateRandomId s rnd
  let tid :=
    { id := id.1
      id_length := length_randUnused _ _ _ _
      time := timeAdd1Min now
      type := type
      lookup := none }
  ((s.tids.heap.fresh, id.1), { s with tids := s.tids.append id.1 tid }, id.2)

/-- `tdb_link_ldb`, with the lookup that `ldb_init` has just created. -/
def tdbLinkLdb (s : Transaction v) (ti : Ref) (l : Lookup v) : Transaction v where
  tids := s.tids.modify ti fun tid => { tid with lookup := some s.lookups.fresh }
  lookups := s.lookups.alloc l

/-- `tdb_item` -/
def tdbItem (s : Transaction v) (id : Bytes) : Option Ref :=
  s.tids.find id

/-- `tdb_type`; `none` is `P2P_TYPE_UNKNOWN`. -/
def tdbType (s : Transaction v) (ti : Option Ref) : Option TidType :=
  (ti.bind s.tids.heap.get).map (·.type)

/-- `tdb_ldb` -/
def tdbLdb (s : Transaction v) (ti : Ref) : Option Ref :=
  (s.tids.heap.get ti).bind (·.lookup)

/-- `ldb_free` -/
def ldbFree (lookups : Heap (Lookup v)) : Option Ref → Heap (Lookup v)
  | none => lookups
  | some l => lookups.free l

/-- `tdb_del` -/
def tdbDel (s : Transaction v) (ti : Ref) : Transaction v :=
  match s.tids.heap.get ti with
  | none => s
  | some tid =>
      { tids := s.tids.remove ti tid.id
        lookups := match tid.type with
          | .getPeers | .announceStart => ldbFree s.lookups tid.lookup
          | _ => s.lookups }

/-- Deleting a transaction may free a lookup, and does nothing else to them. -/
theorem get_of_get_tdbDel
    {s : Transaction v} {ti l : Ref} {lookup : Lookup v}
    (h : (tdbDel s ti).lookups.get l = some lookup) :
    s.lookups.get l = some lookup := by
  have hfree : ∀ o : Option Ref, (ldbFree s.lookups o).get l = some lookup →
      s.lookups.get l = some lookup := by
    intro o hget
    cases o with
    | none =>
        exact hget
    | some q =>
        rcases eq_or_ne l q with rfl | hl
        · rw [ldbFree, Heap.get_free_self] at hget
          cases hget
        · rwa [ldbFree, Heap.get_free_of_ne _ hl] at hget
  rw [tdbDel] at h
  split at h
  · exact h
  dsimp only at h
  split at h
  · exact hfree _ h
  · exact hfree _ h
  · exact h

@[simp] theorem fresh_tdbDel (s : Transaction v) (ti : Ref) :
    (tdbDel s ti).lookups.fresh = s.lookups.fresh := by
  have hfree : ∀ o : Option Ref, (ldbFree s.lookups o).fresh = s.lookups.fresh := by
    intro o
    cases o <;> rfl
  rw [tdbDel]
  split
  · rfl
  dsimp only
  split
  · exact hfree _
  · exact hfree _
  · rfl

/-- Change a lookup in place. -/
def Transaction.modifyLookup (s : Transaction v) (l : Ref) (f : Lookup v → Lookup v) :
    Transaction v :=
  { s with lookups := s.lookups.modify l f }

end Transaction
end Torrentkino
