import Torrentkino.Shr.Table

/-!
# A table whose hash agrees with its list

A `Table` in which every object is listed once, and the hash leads from the key
of each object to that object and nowhere else.  The invariant is part of the
type: a new object needs a key that is not in use, and a change in place must
keep the key.

The operations are those of `Table`; the theorems say what they do to the
objects.
-/

namespace Torrentkino

open Memory

/-- A table of objects that are listed and hashed under their keys. -/
structure Index {α : Type} (key : α → Bytes) extends Table α where
  nodup : list.Nodup
  mem_list_iff : ∀ r, r ∈ list ↔ heap.Live r
  hashed : ∀ k r, hashGet hash k = some r ↔ ∃ a, heap.get r = some a ∧ key a = k

namespace Index

variable {α : Type} {key : α → Bytes}

/-- The object that the hash refers to has the key. -/
theorem find_eq_some_iff (t : Index key) (k : Bytes) (r : Ref) :
    t.find k = some r ↔ ∃ a, t.heap.get r = some a ∧ key a = k :=
  t.hashed k r

/-- Two objects with one key are one object. -/
theorem key_inj
    (t : Index key) {r q : Ref} {a b : α}
    (ha : t.heap.get r = some a)
    (hb : t.heap.get q = some b)
    (hkey : key a = key b) :
    r = q := by
  have hr := (t.hashed (key a) r).mpr ⟨a, ha, rfl⟩
  have hq := (t.hashed (key a) q).mpr ⟨b, hb, hkey.symm⟩
  exact Option.some.inj (hr.symm.trans hq)

/-- `list_init` and `hash_init` -/
def init (capacity : Nat) (hpos : 0 < capacity) : Index key where
  toTable := .init capacity hpos
  nodup := List.nodup_nil
  mem_list_iff := by
    intro r
    simp [Table.init, Heap.Live]
  hashed := by
    intro k r
    simp [Table.init]

/-- No item has the next reference that is handed out. -/
theorem fresh_not_mem (t : Index key) : t.heap.fresh ∉ t.list := by
  rw [t.mem_list_iff]
  rintro ⟨b, hb⟩
  exact Nat.lt_irrefl _ (Heap.lt_fresh hb)

/-- A new object under an unused key. -/
def insert (t : Index key) (i : Nat) (a : α) (hkey : t.find (key a) = none) :
    Index key where
  toTable := t.toTable.insert i (key a) a
  nodup := by
    have hperm : (t.toTable.insert i (key a) a).list.Perm (t.heap.fresh :: t.list) := by
      rw [Table.insert]
      refine List.perm_middle.trans ?_
      rw [List.take_append_drop]
    rw [hperm.nodup_iff]
    exact List.nodup_cons.mpr ⟨t.fresh_not_mem, t.nodup⟩
  mem_list_iff := by
    intro r
    have hmem : r ∈ (t.toTable.insert i (key a) a).list ↔ r = t.heap.fresh ∨ r ∈ t.list := by
      rw [Table.insert, List.perm_middle.mem_iff, List.take_append_drop, List.mem_cons]
    rw [hmem, t.mem_list_iff, Table.heap_insert]
    rcases eq_or_ne r t.heap.fresh with rfl | hr
    · simp [Heap.live_alloc_self]
    · simp [Heap.Live, Heap.get_alloc_of_ne _ _ hr, hr]
  hashed := by
    intro k r
    change hashGet (hashPut t.hash (key a) (some t.heap.fresh)).2 k = some r ↔ _
    rw [hashGet_hashPut, Table.heap_insert]
    rcases eq_or_ne r t.heap.fresh with rfl | hr
    · rw [Heap.get_alloc_self]
      rcases eq_or_ne k (key a) with rfl | hk
      · simp
      · rw [if_neg hk, t.hashed, t.heap.unused _ (Nat.le_refl _)]
        simp [Ne.symm hk]
    · rw [Heap.get_alloc_of_ne _ _ hr, ← t.hashed]
      rcases eq_or_ne k (key a) with rfl | hk
      · have hnone : hashGet t.hash (key a) = none := hkey
        simp [hnone, Ne.symm hr]
      · rw [if_neg hk]

/-- The object at `r` leaves the table and is freed. -/
def remove (t : Index key) (r : Ref) : Index key :=
  match h : t.heap.get r with
  | none => t
  | some a =>
      { toTable := t.toTable.remove r (key a)
        nodup := t.nodup.erase r
        mem_list_iff := by
          intro q
          change q ∈ t.list.erase r ↔ (t.heap.free r).Live q
          rw [t.nodup.mem_erase_iff, t.mem_list_iff]
          rcases eq_or_ne q r with rfl | hq
          · simp [Heap.Live]
          · simp [Heap.Live, Heap.get_free_of_ne _ hq, hq]
        hashed := by
          intro k q
          change hashGet (hashDel t.hash (key a)) k = some q ↔
            ∃ b, (t.heap.free r).get q = some b ∧ key b = k
          rw [hashGet_hashDel]
          rcases eq_or_ne q r with rfl | hq
          · rcases eq_or_ne k (key a) with rfl | hk
            · simp
            · rw [if_neg hk, t.hashed, h]
              simp [Ne.symm hk]
          · rw [Heap.get_free_of_ne _ hq, ← t.hashed]
            rcases eq_or_ne k (key a) with rfl | hk
            · have hself := (t.hashed (key a) r).mpr ⟨a, h, rfl⟩
              simp [hself, Ne.symm hq]
            · rw [if_neg hk] }

/-- The object at `r` is changed in place; its key stays. -/
def modify (t : Index key) (r : Ref) (f : α → α)
    (hf : ∀ a, t.heap.get r = some a → key (f a) = key a) : Index key where
  toTable := t.toTable.modify r f
  nodup := t.nodup
  mem_list_iff := by
    intro q
    change q ∈ t.list ↔ (t.heap.modify r f).Live q
    rw [t.mem_list_iff]
    rcases eq_or_ne q r with rfl | hq
    · simp [Heap.Live]
    · simp [Heap.Live, Heap.get_modify_of_ne _ _ hq]
  hashed := by
    intro k q
    change hashGet t.hash k = some q ↔
      ∃ a, (t.heap.modify r f).get q = some a ∧ key a = k
    rw [t.hashed]
    rcases eq_or_ne q r with rfl | hq
    · rw [Heap.get_modify_self]
      constructor
      · rintro ⟨a, ha, hk⟩
        exact ⟨f a, by simp [ha], (hf a ha).trans hk⟩
      · rintro ⟨b, hb, hk⟩
        obtain ⟨a, ha, rfl⟩ := Option.map_eq_some_iff.mp hb
        exact ⟨a, ha, (hf a ha).symm.trans hk⟩
    · rw [Heap.get_modify_of_ne _ _ hq]

/-- The object at `r` moves to the start of the list, into an item of its own. -/
def toFront (t : Index key) (r : Ref) : Index key :=
  match h : t.heap.get r with
  | none => t
  | some a =>
      { toTable := t.toTable.toFront r (key a) a
        nodup := by
          change (t.heap.fresh :: t.list.erase r).Nodup
          exact List.nodup_cons.mpr
            ⟨fun hmem => t.fresh_not_mem (List.mem_of_mem_erase hmem), t.nodup.erase r⟩
        mem_list_iff := by
          intro q
          change q ∈ t.heap.fresh :: t.list.erase r ↔ ((t.heap.free r).alloc a).Live q
          rw [List.mem_cons, t.nodup.mem_erase_iff, t.mem_list_iff]
          rcases eq_or_ne q t.heap.fresh with rfl | hnew
          · exact iff_of_true (.inl rfl) ⟨a, Heap.get_alloc_self (t.heap.free r) a⟩
          rw [Heap.Live, Heap.Live, Heap.get_alloc_of_ne (t.heap.free r) a hnew]
          rcases eq_or_ne q r with rfl | hq
          · simp [hnew]
          · simp [Heap.get_free_of_ne _ hq, hq, hnew]
        hashed := by
          intro k q
          change hashGet (hashPut t.hash (key a) (some t.heap.fresh)).2 k = some q ↔
            ∃ b, ((t.heap.free r).alloc a).get q = some b ∧ key b = k
          have hself := (t.hashed (key a) r).mpr ⟨a, h, rfl⟩
          rw [hashGet_hashPut]
          rcases eq_or_ne q t.heap.fresh with rfl | hnew
          · have hget : ((t.heap.free r).alloc a).get t.heap.fresh = some a :=
              Heap.get_alloc_self _ a
            rw [hget]
            rcases eq_or_ne k (key a) with rfl | hk
            · simp
            · rw [if_neg hk, t.hashed, t.heap.unused _ (Nat.le_refl _)]
              simp [Ne.symm hk]
          rw [Heap.get_alloc_of_ne (t.heap.free r) a hnew]
          rcases eq_or_ne k (key a) with rfl | hk
          · -- The key leads to the new item, and the old one is gone.
            rw [if_pos rfl]
            refine iff_of_false (fun heq => hnew (Option.some.inj heq).symm) ?_
            rintro ⟨b, hb, hkey⟩
            rcases eq_or_ne q r with rfl | hq
            · simp at hb
            · rw [Heap.get_free_of_ne _ hq] at hb
              exact hq (t.key_inj hb h hkey)
          · rw [if_neg hk, t.hashed]
            rcases eq_or_ne q r with rfl | hq
            · rw [h]
              simp [Ne.symm hk]
            · rw [Heap.get_free_of_ne _ hq] }

@[simp] theorem heap_insert
    (t : Index key) (i : Nat) (a : α) (hkey : t.find (key a) = none) :
    (t.insert i a hkey).heap = t.heap.alloc a := rfl

@[simp] theorem list_insert
    (t : Index key) (i : Nat) (a : α) (hkey : t.find (key a) = none) :
    (t.insert i a hkey).list = t.list.take i ++ t.heap.fresh :: t.list.drop i := rfl

@[simp] theorem heap_modify
    (t : Index key) (r : Ref) (f : α → α)
    (hf : ∀ a, t.heap.get r = some a → key (f a) = key a) :
    (t.modify r f hf).heap = t.heap.modify r f := rfl

@[simp] theorem list_modify
    (t : Index key) (r : Ref) (f : α → α)
    (hf : ∀ a, t.heap.get r = some a → key (f a) = key a) :
    (t.modify r f hf).list = t.list := rfl

@[simp] theorem list_remove (t : Index key) (r : Ref) :
    (t.remove r).list = t.list.erase r := by
  rw [remove]
  split
  · rename_i h
    have hr : r ∉ t.list := by
      rw [t.mem_list_iff]
      rintro ⟨a, ha⟩
      cases h.symm.trans ha
    rw [List.erase_of_not_mem hr]
  · rfl

@[simp] theorem get_remove (t : Index key) (r q : Ref) :
    (t.remove r).heap.get q = if q = r then none else t.heap.get q := by
  rw [remove]
  split
  · rename_i h
    rcases eq_or_ne q r with rfl | hq
    · rw [if_pos rfl, h]
    · rw [if_neg hq]
  · rfl

end Index

/-- The table is that of an index. -/
def Table.Indexed {α : Type} (key : α → Bytes) (t : Table α) : Prop :=
  ∃ i : Index key, i.toTable = t

namespace Table.Indexed

variable {α : Type} {key : α → Bytes} {t : Table α}

theorem init (capacity : Nat) (hpos : 0 < capacity) :
    (Table.init capacity hpos).Indexed key :=
  ⟨.init capacity hpos, rfl⟩

theorem append (h : t.Indexed key) {a : α} (hkey : t.find (key a) = none) :
    (t.append (key a) a).Indexed key := by
  obtain ⟨i, rfl⟩ := h
  exact ⟨i.insert i.list.length a hkey, rfl⟩

theorem remove (h : t.Indexed key) {r : Ref} {a : α} (ha : t.heap.get r = some a) :
    (t.remove r (key a)).Indexed key := by
  obtain ⟨i, rfl⟩ := h
  refine ⟨i.remove r, ?_⟩
  rw [Index.remove]
  split
  · rename_i hnone
    cases hnone.symm.trans ha
  · rename_i b hb
    cases hb.symm.trans ha
    rfl

theorem modify
    (h : t.Indexed key) (r : Ref) {f : α → α} (hf : ∀ a, key (f a) = key a) :
    (t.modify r f).Indexed key := by
  obtain ⟨i, rfl⟩ := h
  exact ⟨i.modify r f fun a _ => hf a, rfl⟩

theorem nodup (h : t.Indexed key) : t.list.Nodup := by
  obtain ⟨i, rfl⟩ := h
  exact i.nodup

theorem mem_list_iff (h : t.Indexed key) (r : Ref) : r ∈ t.list ↔ t.heap.Live r := by
  obtain ⟨i, rfl⟩ := h
  exact i.mem_list_iff r

theorem find_eq_some_iff (h : t.Indexed key) (k : Bytes) (r : Ref) :
    t.find k = some r ↔ ∃ a, t.heap.get r = some a ∧ key a = k := by
  obtain ⟨i, rfl⟩ := h
  exact i.hashed k r

end Table.Indexed
end Torrentkino
