import Mathlib.Data.List.Forall2
import Torrentkino.Lib.Memory
import Torrentkino.Shr.Hash

/-!
# The pairs of `shr/hash.c`

A pair has a pointer to its key, and the bytes of the key are read from memory at every
call.  As long as nobody writes to the keys that are stored, the pairs are those of the
table `Hash`, which has the keys themselves.

The pointer to the table is never `NULL`.

**Results.**
* `Denotes.put`, `Denotes.del`, `Denotes.get`: each call does to the table what it does
  to `Hash`.
* `hash_finite_map`: a lookup finds the value that was put last.
-/

namespace Torrentkino

open Memory

/-- `PAIR`, with `none` for `NULL`. -/
structure MemPair (β : Type) where
  key : Option Nat
  size : Nat
  value : Option β

/-- `HASH` with the pairs of its buckets. -/
structure MemHash (β : Type) where
  size : Nat
  buckets : Nat → List (MemPair β)

namespace MemHash

variable {β : Type}

/-- `hash_init` -/
def init (capacity : Nat) : MemHash β where
  size := capacity
  buckets := fun _ => []

/-- `memcmp` of the key of a pair, if it has one and a value. -/
def hasKey (mem : Mem) (pair : MemPair β) (key size : Nat) : Bool :=
  match pair.key, pair.value with
  | some k, some _ => pair.size = size && copy mem k size = copy mem key size
  | _, _ => false

/-- `hash_getpair`: the position of the pair in the array, from index `i` on. -/
def getpair (mem : Mem) (key size : Nat) : List (MemPair β) → Nat → Option Nat
  | [], _ => none
  | pair :: pairs, i =>
      if hasKey mem pair key size then some i else getpair mem key size pairs (i + 1)

/-- The index of a key. -/
def index (mem : Mem) (map : MemHash β) (key size : Nat) : Nat :=
  hashThis (copy mem key size) % map.size

/-- Assignment to a bucket. -/
def setBucket (map : MemHash β) (i : Nat) (pairs : List (MemPair β)) : MemHash β :=
  { map with buckets := Function.update map.buckets i pairs }

/-- `hash_get` -/
def get (mem : Mem) (map : MemHash β) (key : Option Nat) (size : Nat) : Option β :=
  match key with
  | none => none
  | some key =>
      let bucket := map.buckets (index mem map key size)
      match getpair mem key size bucket 0 with
      | none => none
      | some i => bucket[i]?.bind MemPair.value

/-- `hash_exists` -/
def contains (mem : Mem) (map : MemHash β) (key : Option Nat) (size : Nat) : Bool :=
  (get mem map key size).isSome

/-- `hash_put` -/
def put (mem : Mem) (map : MemHash β) (key : Option Nat) (size : Nat) (value : Option β) :
    Bool × MemHash β :=
  match key, value with
  | some key, some value =>
      let i := index mem map key size
      let bucket := map.buckets i
      match getpair mem key size bucket 0 with
      | some j =>
          (true, map.setBucket i (bucket.modify j fun pair => { pair with value := some value }))
      | none => (true, map.setBucket i (bucket ++ [⟨some key, size, some value⟩]))
  | _, _ => (false, map)

/-- The loop of `hash_del`: copy the pairs from index `i` on, but not the one at `j`. -/
def copyPairs (j : Nat) : List (MemPair β) → Nat → List (MemPair β)
  | [], _ => []
  | pair :: pairs, i =>
      if i ≠ j then pair :: copyPairs j pairs (i + 1) else copyPairs j pairs (i + 1)

/-- `hash_del` -/
def del (mem : Mem) (map : MemHash β) (key : Option Nat) (size : Nat) : MemHash β :=
  match key with
  | none => map
  | some key =>
      let i := index mem map key size
      let bucket := map.buckets i
      match getpair mem key size bucket 0 with
      | none => map
      | some j =>
          if bucket.length = 1 then map.setBucket i []
          else map.setBucket i (copyPairs j bucket 0)

end MemHash

/-! ## Pairs and their keys -/

section Denotes

variable {β : Type} {mem : Mem}

/-- The pair has this key and this value. -/
def MemPair.Denotes (mem : Mem) (pair : MemPair β) (entry : Bytes × β) : Prop :=
  ∃ k, pair.key = some k ∧ copy mem k pair.size = entry.1 ∧ pair.value = some entry.2

/-- The array has these pairs. -/
abbrev DenotesPairs (mem : Mem) : List (MemPair β) → List (Bytes × β) → Prop :=
  List.Forall₂ (MemPair.Denotes mem)

theorem hasKey_iff
    {pair : MemPair β} {entry : Bytes × β} (h : pair.Denotes mem entry) (key size : Nat) :
    MemHash.hasKey mem pair key size = true ↔ entry.1 = copy mem key size := by
  obtain ⟨k, hkey, hbytes, hvalue⟩ := h
  rw [MemHash.hasKey, hkey, hvalue, ← hbytes]
  simp only [Bool.and_eq_true, decide_eq_true_eq]
  constructor
  · rintro ⟨hsize, hcmp⟩
    rw [hsize, hcmp]
  · intro hcmp
    have hsize := congrArg List.length hcmp
    rw [copy_length, copy_length] at hsize
    exact ⟨hsize, hsize ▸ hcmp⟩

/-- Where the pair of a key is: nowhere, or behind pairs with other keys. -/
theorem getpair_cases
    {pairs : List (MemPair β)} {entries : List (Bytes × β)}
    (h : DenotesPairs mem pairs entries) (key size i : Nat) :
    (MemHash.getpair mem key size pairs i = none ∧
      hashGetpair entries (copy mem key size) = none) ∨
    ∃ front pair back front' value back', pairs = front ++ pair :: back ∧
      entries = front' ++ (copy mem key size, value) :: back' ∧
      DenotesPairs mem front front' ∧ pair.Denotes mem (copy mem key size, value) ∧
      DenotesPairs mem back back' ∧
      MemHash.getpair mem key size pairs i = some (i + front.length) ∧
      copy mem key size ∉ front'.map Prod.fst := by
  induction h generalizing i with
  | nil =>
      exact .inl ⟨rfl, rfl⟩
  | cons hpair hpairs ih =>
      rename_i pair entry pairs entries
      by_cases hcmp : entry.1 = copy mem key size
      · right
        refine ⟨[], pair, pairs, [], entry.2, entries, rfl, by rw [← hcmp]; rfl, .nil,
          by rw [← hcmp]; exact hpair, hpairs, ?_, List.not_mem_nil⟩
        rw [MemHash.getpair, if_pos ((hasKey_iff hpair key size).mpr hcmp)]
        rfl
      · have hkey : ¬ MemHash.hasKey mem pair key size = true :=
          mt (hasKey_iff hpair key size).mp hcmp
        rw [MemHash.getpair, if_neg hkey]
        rcases ih (i + 1) with ⟨hnone, hnone'⟩ |
          ⟨front, pair', back, front', value, back', rfl, rfl, hfront, hpair', hback, hsome, hnew⟩
        · left
          rw [hashGetpair, if_neg hcmp]
          exact ⟨hnone, hnone'⟩
        · right
          refine ⟨pair :: front, pair', back, entry :: front', value, back', rfl, rfl,
            .cons hpair hfront, hpair', hback, ?_, ?_⟩
          · rw [hsome, List.length_cons, Nat.add_assoc, Nat.add_comm 1]
          · simp only [List.map_cons, List.mem_cons, not_or]
            exact ⟨Ne.symm hcmp, hnew⟩

/-- Only the pair behind the front is modified. -/
theorem modify_of_front
    (front : List (MemPair β)) (pair : MemPair β) (back : List (MemPair β))
    (f : MemPair β → MemPair β) :
    (front ++ pair :: back).modify front.length f = front ++ f pair :: back := by
  induction front with
  | nil =>
      rfl
  | cons pair' front ih =>
      rw [List.cons_append, List.length_cons, List.modify_succ_cons, ih, List.cons_append]

/-- The loop leaves out one pair. -/
theorem copyPairs_eq (front : List (MemPair β)) (pair : MemPair β) (back : List (MemPair β))
    (i : Nat) :
    MemHash.copyPairs (i + front.length) (front ++ pair :: back) i = front ++ back := by
  have hback : ∀ (pairs : List (MemPair β)) (j i : Nat), j < i →
      MemHash.copyPairs j pairs i = pairs := by
    intro pairs j i hji
    induction pairs generalizing i with
    | nil =>
        rfl
    | cons pair pairs ih =>
        rw [MemHash.copyPairs, if_pos (by omega), ih (i + 1) (by omega)]
  induction front generalizing i with
  | nil =>
      rw [List.nil_append, List.length_nil, Nat.add_zero, MemHash.copyPairs, if_neg (by simp),
        hback back i (i + 1) (Nat.lt_succ_self i), List.nil_append]
  | cons pair' front ih =>
      have hrest := ih (i + 1)
      rw [Nat.add_right_comm, Nat.add_assoc] at hrest
      rw [List.cons_append, List.length_cons, MemHash.copyPairs, if_pos (by omega), hrest,
        List.cons_append]

end Denotes

/-! ## `Hash` behind the keys in front -/

section Front

variable {β : Type} {key : Bytes} {front : List (Bytes × β)}

theorem hashGetpair_of_front
    (hfront : key ∉ front.map Prod.fst) (value : β) (back : List (Bytes × β)) :
    hashGetpair (front ++ (key, value) :: back) key = some (key, value) := by
  induction front with
  | nil =>
      exact if_pos rfl
  | cons entry front ih =>
      simp only [List.map_cons, List.mem_cons, not_or] at hfront
      rw [List.cons_append, hashGetpair, if_neg (Ne.symm hfront.1), ih hfront.2]

theorem setValue_of_front
    (hfront : key ∉ front.map Prod.fst) (value value' : β) (back : List (Bytes × β)) :
    setValue (front ++ (key, value) :: back) key value' = front ++ (key, value') :: back := by
  induction front with
  | nil =>
      exact if_pos rfl
  | cons entry front ih =>
      simp only [List.map_cons, List.mem_cons, not_or] at hfront
      rw [List.cons_append, setValue, if_neg (Ne.symm hfront.1), ih hfront.2, List.cons_append]

theorem dropPair_of_front
    (hfront : key ∉ front.map Prod.fst) (value : β) (back : List (Bytes × β)) :
    dropPair (front ++ (key, value) :: back) key = front ++ back := by
  induction front with
  | nil =>
      exact if_pos rfl
  | cons entry front ih =>
      simp only [List.map_cons, List.mem_cons, not_or] at hfront
      rw [List.cons_append, dropPair, if_neg (Ne.symm hfront.1), ih hfront.2, List.cons_append]

theorem dropPair_of_none
    {bucket : List (Bytes × β)} (h : hashGetpair bucket key = none) :
    dropPair bucket key = bucket := by
  induction bucket with
  | nil =>
      rfl
  | cons entry bucket ih =>
      rw [hashGetpair] at h
      split at h
      · cases h
      · rename_i hne
        rw [dropPair, if_neg hne, ih h]

end Front

/-! ## The table -/

section Refines

variable {β : Type} {mem : Mem}

/-- The table in memory is this one. -/
structure MemHash.Refines (mem : Mem) (map : MemHash β) (abs : Hash β) : Prop where
  size_eq : map.size = abs.size
  denotes : ∀ i, DenotesPairs mem (map.buckets i) (abs.buckets i)

theorem refines_init (mem : Mem) (capacity : Nat) (hpos : 0 < capacity) :
    (MemHash.init capacity : MemHash β).Refines mem (hashInit capacity hpos) where
  size_eq := rfl
  denotes _ := .nil

namespace MemHash.Refines

variable {map : MemHash β} {abs : Hash β} (h : map.Refines mem abs) (key size : Nat)
include h

theorem index_eq : map.index mem key size = abs.index (copy mem key size) := by
  rw [MemHash.index, Hash.index, h.size_eq]

/-- A lookup gives the value of the key. -/
theorem get : map.get mem (some key) size = hashGet abs (copy mem key size) := by
  rw [MemHash.get, hashGet, h.index_eq]
  rcases getpair_cases (h.denotes (abs.index (copy mem key size))) key size 0 with
    ⟨hnone, hnone'⟩ |
    ⟨front, pair, back, front', value, back', hpairs, hentries, -, ⟨k, -, -, hvalue⟩, -, hsome, hnew⟩
  · rw [hnone, hnone']
    rfl
  · rw [hsome, hpairs, hentries, hashGetpair_of_front hnew]
    simp [hvalue]

/-- One bucket is replaced in both tables. -/
theorem setBucket
    {abs' : Hash β} {i : Nat} {pairs : List (MemPair β)} {entries : List (Bytes × β)}
    (hsize : abs'.size = abs.size) (hbuckets : abs'.buckets = Function.update abs.buckets i entries)
    (hpairs : DenotesPairs mem pairs entries) :
    (map.setBucket i pairs).Refines mem abs' where
  size_eq := h.size_eq.trans hsize.symm
  denotes j := by
    change DenotesPairs mem (Function.update map.buckets i pairs j) _
    rw [hbuckets]
    rcases eq_or_ne j i with rfl | hj
    · rwa [Function.update_self, Function.update_self]
    · rw [Function.update_of_ne hj, Function.update_of_ne hj]
      exact h.denotes j

/-- Nothing is replaced in the table. -/
theorem keep
    {abs' : Hash β} {i : Nat} (hsize : abs'.size = abs.size)
    (hbuckets : abs'.buckets = Function.update abs.buckets i (abs.buckets i)) :
    map.Refines mem abs' where
  size_eq := h.size_eq.trans hsize.symm
  denotes j := by
    rw [hbuckets, Function.update_eq_self]
    exact h.denotes j

/-- The value of a key is set. -/
theorem put (value : β) :
    (map.put mem (some key) size (some value)).1 = true ∧
      (map.put mem (some key) size (some value)).2.Refines mem
        (hashPut abs (copy mem key size) (some value)).2 := by
  rw [MemHash.put, h.index_eq]
  rcases getpair_cases (h.denotes (abs.index (copy mem key size))) key size 0 with
    ⟨hnone, hnone'⟩ |
    ⟨front, pair, back, front', value', back', hpairs, hentries, hfront, hpair, hback, hsome,
      hnew⟩
  · simp only [hnone]
    refine ⟨trivial, ?_⟩
    rw [hashPut]
    split
    · rename_i hold
      rw [hnone'] at hold
      cases hold
    · refine h.setBucket rfl rfl (List.rel_append (h.denotes _) (.cons ?_ .nil))
      exact ⟨key, rfl, rfl, rfl⟩
  · have hfound : hashGetpair (abs.buckets (abs.index (copy mem key size)))
        (copy mem key size) = some (copy mem key size, value') := by
      rw [hentries, hashGetpair_of_front hnew]
    rw [Nat.zero_add] at hsome
    simp only [hsome]
    refine ⟨trivial, ?_⟩
    rw [hashPut]
    split
    · refine h.setBucket rfl rfl ?_
      rw [hpairs, hentries, setValue_of_front hnew, modify_of_front]
      obtain ⟨k, hkey, hbytes, -⟩ := hpair
      exact List.rel_append hfront (.cons ⟨k, hkey, hbytes, rfl⟩ hback)
    · rename_i hold
      rw [hfound] at hold
      cases hold

/-- The pair of a key is removed, if there is one. -/
theorem del : (map.del mem (some key) size).Refines mem (hashDel abs (copy mem key size)) := by
  rw [MemHash.del, h.index_eq]
  rcases getpair_cases (h.denotes (abs.index (copy mem key size))) key size 0 with
    ⟨hnone, hnone'⟩ |
    ⟨front, pair, back, front', value, back', hpairs, hentries, hfront, -, hback, hsome, hnew⟩
  · simp only [hnone]
    exact h.keep rfl (congrArg (Function.update abs.buckets _) (dropPair_of_none hnone'))
  · simp only [hsome]
    have hdrop : DenotesPairs mem (front ++ back)
        (dropPair (abs.buckets (abs.index (copy mem key size))) (copy mem key size)) := by
      rw [hentries, dropPair_of_front hnew]
      exact List.rel_append hfront hback
    split
    · rename_i hone
      rw [hpairs, List.length_append, List.length_cons] at hone
      have hnil : front ++ back = [] := by
        rw [← List.length_eq_zero_iff, List.length_append]
        omega
      rw [hnil] at hdrop
      exact h.setBucket rfl rfl hdrop
    · rw [hpairs, copyPairs_eq]
      exact h.setBucket rfl rfl hdrop

/-- The table is the same in memory where its keys have the same bytes. -/
theorem of_keys_eq
    {mem' : Mem} (hkeys : ∀ i, ∀ pair ∈ map.buckets i, ∀ k, pair.key = some k →
      copy mem' k pair.size = copy mem k pair.size) :
    map.Refines mem' abs where
  size_eq := h.size_eq
  denotes i := by
    have hpairs := h.denotes i
    have hbytes := hkeys i
    generalize map.buckets i = pairs at hpairs hbytes
    generalize abs.buckets i = entries at hpairs
    induction hpairs with
    | nil =>
        exact .nil
    | cons hpair hpairs ih =>
        obtain ⟨k, hkey, hcopy, hvalue⟩ := hpair
        refine .cons ⟨k, hkey, ?_, hvalue⟩ (ih fun pair hmem => hbytes pair (.tail _ hmem))
        rw [hbytes _ (.head _) k hkey, hcopy]

end MemHash.Refines

end Refines

/-! ## Calls -/

/-- The calls that use a key. -/
inductive HashOp (κ β : Type) where
  | put (key : κ) (value : Option β)
  | del (key : κ)
  | get (key : κ)
  | contains (key : κ)

section Runs

variable {β : Type}

/-- The call with the bytes of its key, which is given by its address and its size. -/
def HashOp.read (mem : Mem) : HashOp (Nat × Nat) β → HashOp Bytes β
  | .put key value => .put (copy mem key.1 key.2) value
  | .del key => .del (copy mem key.1 key.2)
  | .get key => .get (copy mem key.1 key.2)
  | .contains key => .contains (copy mem key.1 key.2)

/-- What a call makes of the table. -/
def MemHash.call (mem : Mem) (map : MemHash β) : HashOp (Nat × Nat) β → MemHash β
  | .put key value => (map.put mem (some key.1) key.2 value).2
  | .del key => map.del mem (some key.1) key.2
  | .get _ => map
  | .contains _ => map

/-- The value that was put last for the key and not deleted since then, in a history
with the newest call in front. -/
def lastPut : List (HashOp Bytes β) → Bytes → Option β
  | [], _ => none
  | .put key value :: earlier, key' =>
      match value with
      | some value => if key' = key then some value else lastPut earlier key'
      | none => lastPut earlier key'
  | .del key :: earlier, key' => if key' = key then none else lastPut earlier key'
  | .get _ :: earlier, key' => lastPut earlier key'
  | .contains _ :: earlier, key' => lastPut earlier key'

/-- The table after a history of calls, and memory at that time.  Between the calls the
program writes to memory, but not to the keys that are stored. -/
inductive HashRun (capacity : Nat) : List (HashOp Bytes β) → Mem → MemHash β → Prop where
  | init (mem : Mem) : HashRun capacity [] mem (.init capacity)
  | write {calls : List (HashOp Bytes β)} {mem mem' : Mem} {map : MemHash β}
      (run : HashRun capacity calls mem map)
      (keys : ∀ i, ∀ pair ∈ map.buckets i, ∀ k, pair.key = some k →
        copy mem' k pair.size = copy mem k pair.size) :
      HashRun capacity calls mem' map
  | call {calls : List (HashOp Bytes β)} {mem : Mem} {map : MemHash β}
      (run : HashRun capacity calls mem map) (op : HashOp (Nat × Nat) β) :
      HashRun capacity (op.read mem :: calls) mem (map.call mem op)

/-- The table has the value that was put last for every key. -/
theorem HashRun.refines
    {capacity : Nat} (hpos : 0 < capacity) {calls : List (HashOp Bytes β)} {mem : Mem}
    {map : MemHash β} (run : HashRun capacity calls mem map) :
    ∃ abs : Hash β, map.Refines mem abs ∧ ∀ key, hashGet abs key = lastPut calls key := by
  induction run with
  | init mem =>
      exact ⟨hashInit capacity hpos, refines_init mem capacity hpos, fun _ => rfl⟩
  | write run keys ih =>
      obtain ⟨abs, hrefines, hget⟩ := ih
      exact ⟨abs, hrefines.of_keys_eq keys, hget⟩
  | call run op ih =>
      obtain ⟨abs, hrefines, hget⟩ := ih
      cases op with
      | put key value =>
          cases value with
          | none =>
              exact ⟨abs, hrefines, hget⟩
          | some value =>
              refine ⟨_, (hrefines.put key.1 key.2 value).2, fun key' => ?_⟩
              rw [hashGet_hashPut, hget]
              rfl
      | del key =>
          refine ⟨_, hrefines.del key.1 key.2, fun key' => ?_⟩
          rw [hashGet_hashDel, hget]
          rfl
      | get key =>
          exact ⟨abs, hrefines, hget⟩
      | contains key =>
          exact ⟨abs, hrefines, hget⟩

/-- The bytes of the keys of a bucket. -/
def MemHash.keys (mem : Mem) (map : MemHash β) (i : Nat) : List (Option Bytes) :=
  (map.buckets i).map fun pair => pair.key.map fun k => copy mem k pair.size

theorem MemHash.Refines.keys_eq
    {mem : Mem} {map : MemHash β} {abs : Hash β} (h : map.Refines mem abs) (i : Nat) :
    map.keys mem i = (abs.buckets i).map fun entry => some entry.1 := by
  have hpairs := h.denotes i
  rw [MemHash.keys]
  generalize map.buckets i = pairs at hpairs
  generalize abs.buckets i = entries at hpairs
  induction hpairs with
  | nil =>
      rfl
  | cons hpair hpairs ih =>
      obtain ⟨k, hkey, hbytes, -⟩ := hpair
      rw [List.map_cons, List.map_cons, ih, hkey, Option.map_some, hbytes]

/-- The table is a finite map from byte strings to values: a lookup finds the value that
was put last and not deleted since, `hash_exists` says whether there is one, putting
`NULL` changes nothing, and no bucket has two pairs with equal keys. -/
theorem hash_finite_map
    {capacity : Nat} (hpos : 1 ≤ capacity) {calls : List (HashOp Bytes β)} {mem : Mem}
    {map : MemHash β} (run : HashRun capacity calls mem map) :
    (∀ key size, map.get mem (some key) size = lastPut calls (copy mem key size)) ∧
    (∀ key size, map.contains mem (some key) size = (lastPut calls (copy mem key size)).isSome) ∧
    (∀ key size, map.put mem (some key) size none = (false, map)) ∧
    ∀ i, (map.keys mem i).Nodup := by
  obtain ⟨abs, hrefines, hget⟩ := run.refines hpos
  have hlookup : ∀ key size,
      map.get mem (some key) size = lastPut calls (copy mem key size) := by
    intro key size
    rw [hrefines.get, hget]
  refine ⟨hlookup, fun key size => ?_, fun key size => rfl, fun i => ?_⟩
  · rw [MemHash.contains, hlookup]
  · have hnodup := (abs.unique i).map (Option.some_injective Bytes)
    rw [List.map_map] at hnodup
    rw [hrefines.keys_eq]
    exact hnodup

end Runs

/-- Two keys of one byte. -/
def twoKeys : Mem :=
  buffer [97, 98] []

/-- Both keys are in the only bucket, and one of them is deleted. -/
theorem hash_finite_map_twoKeys :
    ((((MemHash.init 1 : MemHash Nat).call twoKeys (.put (0, 1) (some 7))).call twoKeys
      (.put (1, 1) (some 8))).call twoKeys (.del (0, 1))).get twoKeys (some 1) 1 = some 8 := by
  have hrun := (((HashRun.init twoKeys : HashRun (β := Nat) 1 [] twoKeys _).call
    (.put (0, 1) (some 7))).call (.put (1, 1) (some 8))).call (.del (0, 1))
  exact ((hash_finite_map (by decide) hrun).1 1 1).trans (by decide)

end Torrentkino
