import Mathlib.Logic.Function.Basic
import Torrentkino.Shr.Config

/-!
# `shr/hash.c`

A hash table with a fixed number of buckets; each bucket is an array of pairs.
The table does not copy its keys, so a key stands for the bytes that its owner
keeps unchanged while it is stored.  The overflow check of a bucket with
`LONG_MAX` pairs is left out: such an array does not fit into memory.

The type carries the invariant of the table: every pair lies in the bucket its
key hashes to, and no bucket has two pairs with equal keys.  With it a table is
a finite map from byte strings to values, which is all that later proofs use.

**Results.**
* `hashGet_hashInit`, `hashGet_hashPut`, `hashGet_hashDel`: the table as a
  finite map.
-/

namespace Torrentkino

open Memory

/-- `hash_this`, with `ULONG` arithmetic. -/
def hashThis (key : Bytes) : Nat :=
  key.foldl (fun result c => ((result <<< 5) + result + c.toNat) % 2 ^ 64) 5381

/-- `HASH` with its `BUCKET`s. -/
structure Hash (β : Type) where
  size : Nat
  buckets : Nat → List (Bytes × β)
  size_pos : 0 < size
  placed : ∀ i, ∀ pair ∈ buckets i, hashThis pair.1 % size = i
  unique : ∀ i, ((buckets i).map Prod.fst).Nodup

section Pairs

variable {β : Type}

/-- `hash_getpair`: the first pair with this key. -/
def hashGetpair : List (Bytes × β) → Bytes → Option (Bytes × β)
  | [], _ => none
  | pair :: bucket, key =>
      if pair.1 = key then some pair else hashGetpair bucket key

/-- Assignment to the value of that pair. -/
def setValue : List (Bytes × β) → Bytes → β → List (Bytes × β)
  | [], _, _ => []
  | pair :: bucket, key, value =>
      if pair.1 = key then (pair.1, value) :: bucket
      else pair :: setValue bucket key value

/-- The copy of the array without that pair. -/
def dropPair : List (Bytes × β) → Bytes → List (Bytes × β)
  | [], _ => []
  | pair :: bucket, key =>
      if pair.1 = key then bucket else pair :: dropPair bucket key

theorem hashGetpair_eq_none_iff (bucket : List (Bytes × β)) (key : Bytes) :
    hashGetpair bucket key = none ↔ key ∉ bucket.map Prod.fst := by
  induction bucket with
  | nil =>
      simp [hashGetpair]
  | cons pair bucket ih =>
      by_cases hpair : pair.1 = key
      · simp [hashGetpair, hpair]
      · rw [hashGetpair, if_neg hpair, ih]
        simp [Ne.symm hpair]

theorem map_fst_setValue (bucket : List (Bytes × β)) (key : Bytes) (value : β) :
    (setValue bucket key value).map Prod.fst = bucket.map Prod.fst := by
  induction bucket with
  | nil =>
      rfl
  | cons pair bucket ih =>
      by_cases hpair : pair.1 = key
      · simp [setValue, hpair]
      · simp [setValue, hpair, ih]

theorem dropPair_sublist (bucket : List (Bytes × β)) (key : Bytes) :
    (dropPair bucket key).Sublist bucket := by
  induction bucket with
  | nil =>
      exact List.Sublist.refl _
  | cons pair bucket ih =>
      rw [dropPair]
      split
      · exact List.sublist_cons_self pair bucket
      · exact ih.cons_cons pair

theorem hashGetpair_setValue
    {bucket : List (Bytes × β)} {key : Bytes} (value : β) (key' : Bytes)
    (hkey : key ∈ bucket.map Prod.fst) :
    (hashGetpair (setValue bucket key value) key').map Prod.snd =
      if key' = key then some value
      else (hashGetpair bucket key').map Prod.snd := by
  induction bucket with
  | nil =>
      simp at hkey
  | cons pair bucket ih =>
      rcases eq_or_ne pair.1 key with rfl | hpair
      · rcases eq_or_ne pair.1 key' with rfl | hkey'
        · simp [setValue, hashGetpair]
        · simp [setValue, hashGetpair, hkey', Ne.symm hkey']
      · have hmem : key ∈ bucket.map Prod.fst := by
          simpa [Ne.symm hpair] using hkey
        rcases eq_or_ne pair.1 key' with rfl | hkey'
        · simp [setValue, hashGetpair, hpair]
        · simpa [setValue, hashGetpair, hpair, hkey'] using ih hmem

theorem hashGetpair_append
    {bucket : List (Bytes × β)} {key : Bytes} (value : β) (key' : Bytes)
    (hkey : key ∉ bucket.map Prod.fst) :
    (hashGetpair (bucket ++ [(key, value)]) key').map Prod.snd =
      if key' = key then some value
      else (hashGetpair bucket key').map Prod.snd := by
  induction bucket with
  | nil =>
      simp [hashGetpair, eq_comm]
  | cons pair bucket ih =>
      simp only [List.map_cons, List.mem_cons, not_or] at hkey
      rcases eq_or_ne pair.1 key' with rfl | hkey'
      · simp [hashGetpair, Ne.symm hkey.1]
      · simpa [hashGetpair, hkey'] using ih hkey.2

theorem hashGetpair_dropPair
    {bucket : List (Bytes × β)} (key key' : Bytes)
    (hnodup : (bucket.map Prod.fst).Nodup) :
    hashGetpair (dropPair bucket key) key' =
      if key' = key then none else hashGetpair bucket key' := by
  induction bucket with
  | nil =>
      simp [dropPair, hashGetpair]
  | cons pair bucket ih =>
      obtain ⟨hpair, hnodup'⟩ := List.nodup_cons.mp hnodup
      rcases eq_or_ne pair.1 key with rfl | hne
      · rw [dropPair, if_pos rfl, hashGetpair]
        rcases eq_or_ne pair.1 key' with rfl | hkey'
        · simpa using (hashGetpair_eq_none_iff bucket pair.1).mpr hpair
        · simp [hkey', Ne.symm hkey']
      · rw [dropPair, if_neg hne, hashGetpair, hashGetpair, ih hnodup']
        rcases eq_or_ne pair.1 key' with rfl | hkey'
        · simp [hne]
        · simp [hkey']

end Pairs

section Hash

variable {β : Type}

/-- `hash_init` -/
def hashInit (capacity : Nat) (hpos : 0 < capacity) : Hash β where
  size := capacity
  buckets := fun _ => []
  size_pos := hpos
  placed := by simp
  unique := by simp

/-- The bucket of a key. -/
def Hash.index (map : Hash β) (key : Bytes) : Nat :=
  hashThis key % map.size

/-- A table with one bucket replaced. -/
def Hash.setBucket (map : Hash β) (i : Nat) (bucket : List (Bytes × β))
    (hplaced : ∀ pair ∈ bucket, hashThis pair.1 % map.size = i)
    (hunique : (bucket.map Prod.fst).Nodup) : Hash β where
  size := map.size
  buckets := Function.update map.buckets i bucket
  size_pos := map.size_pos
  placed := by
    intro j
    rcases eq_or_ne j i with rfl | hj
    · simpa using hplaced
    · simpa [Function.update_of_ne hj] using map.placed j
  unique := by
    intro j
    rcases eq_or_ne j i with rfl | hj
    · simpa using hunique
    · simpa [Function.update_of_ne hj] using map.unique j

/-- `hash_get`, with `none` for `NULL`. -/
def hashGet (map : Hash β) (key : Bytes) : Option β :=
  (hashGetpair (map.buckets (map.index key)) key).map Prod.snd

/-- `hash_exists` -/
def hashExists (map : Hash β) (key : Bytes) : Bool :=
  (hashGet map key).isSome

/-- The keys of a bucket in which `key` is missing, with `key` behind them. -/
theorem nodup_append_key
    {bucket : List (Bytes × β)} {key : Bytes} (value : β)
    (hnodup : (bucket.map Prod.fst).Nodup)
    (hkey : hashGetpair bucket key = none) :
    ((bucket ++ [(key, value)]).map Prod.fst).Nodup := by
  rw [List.map_append, List.map_cons, List.map_nil,
    (List.perm_append_singleton _ _).nodup_iff, List.nodup_cons]
  exact ⟨(hashGetpair_eq_none_iff bucket key).mp hkey, hnodup⟩

/-- The keys of a bucket determine where its pairs belong. -/
theorem placed_of_map_fst
    {bucket bucket' : List (Bytes × β)} {size i : Nat}
    (hkeys : bucket'.map Prod.fst ⊆ bucket.map Prod.fst)
    (hplaced : ∀ pair ∈ bucket, hashThis pair.1 % size = i) :
    ∀ pair ∈ bucket', hashThis pair.1 % size = i := by
  intro pair hpair
  obtain ⟨pair', hpair', hkey⟩ := List.mem_map.mp (hkeys (List.mem_map_of_mem hpair))
  rw [← hkey]
  exact hplaced pair' hpair'

/-- `hash_put`: the result and the table. -/
def hashPut (map : Hash β) (key : Bytes) : Option β → Bool × Hash β
  | none => (false, map)
  | some value =>
      let i := map.index key
      match h : hashGetpair (map.buckets i) key with
      | some _ =>
          (true, map.setBucket i (setValue (map.buckets i) key value)
            (placed_of_map_fst (by rw [map_fst_setValue]; exact List.Subset.refl _)
              (map.placed i))
            (by rw [map_fst_setValue]; exact map.unique i))
      | none =>
          (true, map.setBucket i (map.buckets i ++ [(key, value)])
            (by
              intro pair hpair
              rcases List.mem_append.mp hpair with hold | hnew
              · exact map.placed i pair hold
              · rw [List.mem_singleton.mp hnew]
                rfl)
            (nodup_append_key value (map.unique i) h))

/-- `hash_del` -/
def hashDel (map : Hash β) (key : Bytes) : Hash β :=
  let i := map.index key
  map.setBucket i (dropPair (map.buckets i) key)
    (fun pair hpair => map.placed i pair ((dropPair_sublist _ _).subset hpair))
    (((dropPair_sublist _ _).map Prod.fst).nodup (map.unique i))

/-! ## The table as a finite map -/

@[simp] theorem hashGet_hashInit
    (capacity : Nat) (hpos : 0 < capacity) (key : Bytes) :
    hashGet (hashInit capacity hpos : Hash β) key = none := rfl

/-- A lookup after a bucket was replaced: the other keys of the bucket have to
keep their pairs. -/
theorem hashGet_of_update
    (map : Hash β) {map' : Hash β} {key : Bytes} {r : Option β}
    (bucket : List (Bytes × β))
    (hsize : map'.size = map.size)
    (hbuckets : map'.buckets = Function.update map.buckets (map.index key) bucket)
    (hget : ∀ key', (hashGetpair bucket key').map Prod.snd =
      if key' = key then r
      else (hashGetpair (map.buckets (map.index key)) key').map Prod.snd)
    (key' : Bytes) :
    hashGet map' key' = if key' = key then r else hashGet map key' := by
  have hindex : map'.index key' = map.index key' := by
    rw [Hash.index, Hash.index, hsize]
  rw [hashGet, hashGet, hindex, hbuckets]
  rcases eq_or_ne (map.index key') (map.index key) with hi | hi
  · rw [hi, Function.update_self]
    exact hget key'
  · have hkey : key' ≠ key := by
      rintro rfl
      exact hi rfl
    rw [Function.update_of_ne hi, if_neg hkey]

/-- What a lookup finds after `hash_put`. -/
theorem hashGet_hashPut (map : Hash β) (key : Bytes) (value : β) (key' : Bytes) :
    hashGet (hashPut map key (some value)).2 key' =
      if key' = key then some value else hashGet map key' := by
  rw [hashPut]
  split
  · rename_i pair h
    refine hashGet_of_update map (setValue (map.buckets (map.index key)) key value)
      ?_ ?_ (fun key' => ?_) key'
    · rfl
    · rfl
    refine hashGetpair_setValue value key' ?_
    by_contra hkey
    rw [(hashGetpair_eq_none_iff _ _).mpr hkey] at h
    cases h
  · rename_i h
    refine hashGet_of_update map (map.buckets (map.index key) ++ [(key, value)])
      ?_ ?_ (fun key' => ?_) key'
    · rfl
    · rfl
    exact hashGetpair_append value key' ((hashGetpair_eq_none_iff _ _).mp h)

/-- What a lookup finds after `hash_del`. -/
theorem hashGet_hashDel (map : Hash β) (key key' : Bytes) :
    hashGet (hashDel map key) key' =
      if key' = key then none else hashGet map key' := by
  rw [hashDel]
  refine hashGet_of_update map (dropPair (map.buckets (map.index key)) key)
    ?_ ?_ (fun key' => ?_) key'
  · rfl
  · rfl
  rw [hashGetpair_dropPair key key' (map.unique _)]
  split <;> rfl

end Hash
end Torrentkino
