import Torrentkino.Shr.Index

/-!
# The sequence of an index

What a table represents is the sequence of its objects; references, heap and
hash are the way it is stored.  Here the operations of `Index` are described by
what they do to that sequence, and the hash by the keys in it.

**Results.**
* `find_eq_none_iff`: the hash finds the listed objects only.
* `objects_insert`, `objects_remove`, `objects_modify`, `objects_toFront`: the
  operations on the sequence.
* `objects_foldl`: a loop over the list that changes or removes the object at
  hand.
-/

namespace Torrentkino

open Memory

/-- References that all lead to objects, and the objects. -/
theorem filterMap_eq_of_map_eq
    {α β : Type} {f : α → Option β} {l : List α} {m : List β}
    (h : l.map f = m.map some) :
    l.filterMap f = m := by
  calc l.filterMap f = (l.map f).filterMap id := by rw [List.filterMap_map]; rfl
    _ = (m.map some).filterMap id := by rw [h]
    _ = m := by simp [List.filterMap_map]

namespace Index

variable {α : Type} {key : α → Bytes}

/-- Every item of the list has its object. -/
theorem map_get_list (t : Index key) : t.list.map t.heap.get = t.objects.map some := by
  have hlive : ∀ r ∈ t.list, ∃ a, t.heap.get r = some a := by
    intro r hr
    exact (t.mem_list_iff r).mp hr
  rw [Table.objects]
  generalize t.list = l at hlive
  induction l with
  | nil =>
      rfl
  | cons r l ih =>
      obtain ⟨a, ha⟩ := hlive r List.mem_cons_self
      rw [List.map_cons, List.filterMap_cons_some ha, List.map_cons, ha,
        ih fun q hq => hlive q (List.mem_cons_of_mem _ hq)]

@[simp] theorem length_objects (t : Index key) : t.objects.length = t.list.length := by
  have h := congrArg List.length t.map_get_list
  simpa using h.symm

theorem mem_objects_iff (t : Index key) (a : α) :
    a ∈ t.objects ↔ ∃ r, t.heap.get r = some a := by
  rw [Table.objects, List.mem_filterMap]
  constructor
  · rintro ⟨r, -, ha⟩
    exact ⟨r, ha⟩
  · rintro ⟨r, ha⟩
    exact ⟨r, (t.mem_list_iff r).mpr ⟨a, ha⟩, ha⟩

/-- No two objects of the sequence have the same key. -/
theorem pairwise_key_ne (t : Index key) :
    t.objects.Pairwise fun a b => key a ≠ key b := by
  rw [Table.objects, List.pairwise_filterMap]
  refine t.nodup.imp ?_
  intro r q hne a ha b hb hkey
  exact hne (t.key_inj ha hb hkey)

theorem find_eq_none_iff (t : Index key) (k : Bytes) :
    t.find k = none ↔ ∀ a ∈ t.objects, key a ≠ k := by
  rw [Option.eq_none_iff_forall_ne_some]
  constructor
  · intro h a ha hkey
    obtain ⟨r, hr⟩ := (t.mem_objects_iff a).mp ha
    exact h r ((t.find_eq_some_iff k r).mpr ⟨a, hr, hkey⟩)
  · intro h r hr
    obtain ⟨a, ha, hkey⟩ := (t.find_eq_some_iff k r).mp hr
    exact h a ((t.mem_objects_iff a).mpr ⟨r, ha⟩) hkey

/-- The first items of the list hold the first objects. -/
theorem map_get_take (t : Index key) (i : Nat) :
    (t.list.take i).map t.heap.get = (t.objects.take i).map some := by
  rw [List.map_take, t.map_get_list, List.map_take]

theorem map_get_drop (t : Index key) (i : Nat) :
    (t.list.drop i).map t.heap.get = (t.objects.drop i).map some := by
  rw [List.map_drop, t.map_get_list, List.map_drop]

/-- Searching the list for an object. -/
theorem findIdx_list (t : Index key) (p : α → Bool) :
    (t.list.findIdx fun r => (t.heap.get r).any p) = t.objects.findIdx p := by
  have h := congrArg (List.findIdx fun a => a.any p) t.map_get_list
  rw [List.findIdx_map, List.findIdx_map] at h
  exact h

/-! ## The operations -/

theorem objects_insert (t : Index key) (i : Nat) (a : α) (hkey : t.find (key a) = none) :
    (t.insert i a hkey).objects = t.objects.take i ++ a :: t.objects.drop i := by
  have hold : ∀ l : List Ref, (∀ r ∈ l, r ∈ t.list) → l.map (t.heap.alloc a).get = l.map t.heap.get := by
    intro l hl
    refine List.map_congr_left ?_
    intro r hr
    obtain ⟨b, hb⟩ := (t.mem_list_iff r).mp (hl r hr)
    rw [Heap.get_alloc_of_get a hb, hb]
  refine filterMap_eq_of_map_eq ?_
  rw [list_insert, heap_insert, List.map_append, List.map_cons, Heap.get_alloc_self,
    hold _ fun _ => List.mem_of_mem_take, hold _ fun _ => List.mem_of_mem_drop,
    map_get_take, map_get_drop, List.map_append, List.map_cons]

theorem objects_remove
    (t : Index key) {r : Ref} {a : α} (ha : t.heap.get r = some a) :
    (t.remove r).objects = t.objects.filter fun b => key b ≠ key a := by
  rw [Table.objects, Table.objects, list_remove, t.nodup.erase_eq_filter, List.filter_filterMap,
    List.filterMap_filter]
  refine List.filterMap_congr ?_
  intro q hq
  obtain ⟨b, hb⟩ := (t.mem_list_iff q).mp hq
  rcases eq_or_ne q r with rfl | hne
  · cases ha.symm.trans hb
    simp [ha, Option.filter]
  · have hkey : key b ≠ key a := fun h => hne (t.key_inj hb ha h)
    simp [hb, hne, hkey, Option.filter]

/-- Removing the last item. -/
theorem objects_remove_getLast
    (t : Index key) {r : Ref} (hr : t.list.getLast? = some r) :
    (t.remove r).objects = t.objects.dropLast := by
  obtain ⟨a, ha⟩ := (t.mem_list_iff r).mp (List.mem_of_getLast? hr)
  obtain ⟨l, hl⟩ := List.getLast?_eq_some_iff.mp hr
  have hobjects : t.objects = l.filterMap t.heap.get ++ [a] := by
    rw [Table.objects, hl, List.filterMap_append, List.filterMap_cons_some ha]
    rfl
  have hne : ∀ b ∈ l.filterMap t.heap.get, key b ≠ key a := by
    have hpair := t.pairwise_key_ne
    rw [hobjects, List.pairwise_append] at hpair
    intro b hb
    exact hpair.2.2 b hb a List.mem_cons_self
  rw [t.objects_remove ha, hobjects, List.dropLast_concat, List.filter_append,
    List.filter_eq_self.mpr fun b hb => by simpa using hne b hb]
  simp

theorem objects_modify
    (t : Index key) {r : Ref} {a : α} (ha : t.heap.get r = some a) (f : α → α)
    (hf : ∀ a, t.heap.get r = some a → key (f a) = key a) :
    (t.modify r f hf).objects = t.objects.map fun b => if key b = key a then f b else b := by
  rw [Table.objects, Table.objects, list_modify, heap_modify, List.map_filterMap]
  refine List.filterMap_congr ?_
  intro q hq
  obtain ⟨b, hb⟩ := (t.mem_list_iff q).mp hq
  rcases eq_or_ne q r with rfl | hne
  · cases ha.symm.trans hb
    simp [ha]
  · have hkey : key b ≠ key a := fun h => hne (t.key_inj hb ha h)
    simp [Heap.get_modify_of_ne _ _ hne, hb, hkey]

@[simp] theorem list_toFront
    (t : Index key) {r : Ref} {a : α} (ha : t.heap.get r = some a) :
    (t.toFront r).list = t.heap.fresh :: t.list.erase r := by
  rw [toFront]
  split
  · rename_i h
    cases h.symm.trans ha
  · rfl

/-- The object is in the new item, and the old one is gone. -/
theorem get_toFront
    (t : Index key) {r : Ref} {a : α} (ha : t.heap.get r = some a) (q : Ref) :
    (t.toFront r).heap.get q =
      if q = t.heap.fresh then some a else if q = r then none else t.heap.get q := by
  rw [toFront]
  split
  · rename_i h
    cases h.symm.trans ha
  · rename_i b hb
    cases hb.symm.trans ha
    rfl

theorem objects_toFront
    (t : Index key) {r : Ref} {a : α} (ha : t.heap.get r = some a) :
    (t.toFront r).objects = a :: t.objects.filter fun b => key b ≠ key a := by
  have hnew : (t.toFront r).heap.get t.heap.fresh = some a := by
    rw [t.get_toFront ha, if_pos rfl]
  rw [← t.objects_remove ha, Table.objects, Table.objects, t.list_toFront ha,
    List.filterMap_cons_some hnew, list_remove]
  refine congrArg _ (List.filterMap_congr ?_)
  intro q hq
  rw [t.get_toFront ha, get_remove, if_neg]
  rintro rfl
  exact t.fresh_not_mem (List.mem_of_mem_erase hq)

/-- The object at `r` is replaced, and moves to the start. -/
theorem objects_modify_toFront
    (t : Index key) {r : Ref} {a b : α} (ha : t.heap.get r = some a)
    (hf : ∀ a, t.heap.get r = some a → key b = key a) :
    ((t.modify r (fun _ => b) hf).toFront r).objects =
      b :: t.objects.filter fun c => key c ≠ key b := by
  have hkey : key b = key a := hf a ha
  have hb : (t.modify r (fun _ => b) hf).heap.get r = some b := by
    simp [ha]
  rw [objects_toFront _ hb, t.objects_modify ha, List.filter_map]
  have hfilter : (t.objects.filter fun c => key c ≠ key b).map
      (fun c => if key c = key a then b else c) = t.objects.filter fun c => key c ≠ key b := by
    refine (List.map_congr_left ?_).trans (List.map_id _)
    intro c hc
    have hne : key c ≠ key a := by
      simpa [hkey] using (List.mem_filter.mp hc).2
    rw [if_neg hne]
    rfl
  refine congrArg _ (Eq.trans ?_ hfilter)
  refine congrArg _ (List.filter_congr ?_)
  intro c _
  by_cases hc : key c = key a
  · simp [hc, hkey]
  · simp [hc, hkey]

/-- Removing the last object if there are too many. -/
def limit (t : Index key) (n : Nat) : Index key :=
  if t.list.length > n then
    match t.list.getLast? with
    | none => t
    | some r => t.remove r
  else t

theorem objects_limit (t : Index key) {n : Nat} (hlen : t.list.length ≤ n + 1) :
    (t.limit n).objects = t.objects.take n := by
  rw [limit]
  split
  · rename_i hgt
    split
    · rename_i hnone
      rw [List.getLast?_eq_none_iff] at hnone
      rw [hnone] at hgt
      cases hgt
    · rename_i r hr
      rw [t.objects_remove_getLast hr, List.dropLast_eq_take, length_objects,
        show t.list.length - 1 = n by omega]
  · rename_i hle
    rw [List.take_of_length_le]
    rw [length_objects]
    omega

/-- An object that is still listed is still where it was. -/
theorem get_limit
    {t : Index key} {n : Nat} {r : Ref} {a : α} (ha : t.heap.get r = some a)
    (hmem : a ∈ (t.limit n).objects) :
    (t.limit n).heap.get r = some a := by
  obtain ⟨q, hq⟩ := ((t.limit n).mem_objects_iff a).mp hmem
  have hold : t.heap.get q = some a := by
    rw [limit] at hq
    split at hq
    · split at hq
      · exact hq
      · rw [get_remove] at hq
        split at hq
        · cases hq
        · exact hq
    · exact hq
  rw [t.key_inj ha hold rfl, hq]

/-! ## Loops over the list -/

/-- One round of a loop over the list: the object at hand becomes what `f` says,
or it leaves the table. -/
structure Visits (t t' : Index key) (r : Ref) (f : α → Option α) : Prop where
  list_eq : t'.list = t.list.filter fun q => q = r → ((t.heap.get r).bind f).isSome
  get_eq : ∀ q, t'.heap.get q = if q = r then (t.heap.get r).bind f else t.heap.get q

/-- A loop over a part of the list. -/
theorem foldl_visits
    {step : Index key → Ref → Index key} {f : α → Option α}
    (hstep : ∀ t r, t.heap.Live r → Visits t (step t r) r f)
    (l : List Ref) (hl : l.Nodup) (t : Index key) (hlive : ∀ r ∈ l, t.heap.Live r) :
    (l.foldl step t).list =
        t.list.filter (fun q => q ∈ l → ((t.heap.get q).bind f).isSome) ∧
      ∀ q, (l.foldl step t).heap.get q =
        if q ∈ l then (t.heap.get q).bind f else t.heap.get q := by
  induction l generalizing t with
  | nil =>
      simp
  | cons r l ih =>
      obtain ⟨hr, hl⟩ := List.nodup_cons.mp hl
      have hvisit := hstep t r (hlive r List.mem_cons_self)
      have hkeep : ∀ q ∈ l, (step t r).heap.get q = t.heap.get q := by
        intro q hq
        rw [hvisit.get_eq, if_neg]
        rintro rfl
        exact hr hq
      obtain ⟨hlist, hget⟩ := ih hl (step t r) fun q hq => by
        rw [Heap.Live, hkeep q hq]
        exact hlive q (List.mem_cons_of_mem _ hq)
      rw [List.foldl_cons]
      constructor
      · rw [hlist, hvisit.list_eq, List.filter_filter]
        refine List.filter_congr ?_
        intro q _
        rw [hvisit.get_eq]
        rcases eq_or_ne q r with rfl | hne
        · simp [hr]
        · simp [hne]
      · intro q
        rw [hget, hvisit.get_eq]
        rcases eq_or_ne q r with rfl | hne
        · simp [hr]
        · simp [hne]

/-- A loop over the list changes or removes each object in its turn. -/
theorem objects_foldl
    {step : Index key → Ref → Index key} {f : α → Option α}
    (hstep : ∀ t r, t.heap.Live r → Visits t (step t r) r f) (t : Index key) :
    (t.list.foldl step t).objects = t.objects.filterMap f := by
  obtain ⟨hlist, hget⟩ := foldl_visits hstep t.list t.nodup t
    fun r hr => (t.mem_list_iff r).mp hr
  rw [Table.objects, Table.objects, List.filterMap_filterMap, hlist, List.filterMap_filter]
  refine List.filterMap_congr ?_
  intro q hq
  rw [hget, if_pos hq]
  cases h : (t.heap.get q).bind f <;> simp [hq]

/-- Removing the object at hand, or not. -/
theorem visits_remove
    (t : Index key) {r : Ref} (hr : t.heap.Live r) (p : α → Bool) :
    Visits t (if (t.heap.get r).any p then t.remove r else t) r
      (Option.guard fun a => !p a) := by
  obtain ⟨a, ha⟩ := hr
  cases hp : p a with
  | true =>
      constructor
      · rw [ha, Option.any_some, hp, if_pos rfl, list_remove, t.nodup.erase_eq_filter]
        refine List.filter_congr ?_
        intro q _
        rcases eq_or_ne q r with rfl | hq <;> simp [Option.guard, *]
      · intro q
        rw [ha, Option.any_some, hp, if_pos rfl, get_remove]
        simp [Option.guard, hp]
  | false =>
      constructor
      · rw [ha, Option.any_some, hp, if_neg Bool.false_ne_true, List.filter_eq_self.mpr]
        intro q _
        simp [Option.guard, hp]
      · intro q
        rw [ha, Option.any_some, hp, if_neg Bool.false_ne_true]
        rcases eq_or_ne q r with rfl | hq
        · simp [ha, Option.guard, hp]
        · simp [hq]

/-- Changing the object at hand, and then removing it, or not. -/
theorem visits_modify_remove
    (t : Index key) {r : Ref} (hr : t.heap.Live r) (f : α → α) (p : α → Bool)
    (hf : ∀ a, t.heap.get r = some a → key (f a) = key a) :
    Visits t
      (if ((t.modify r f hf).heap.get r).any p then (t.modify r f hf).remove r
        else t.modify r f hf) r
      (fun a => Option.guard (fun b => !p b) (f a)) := by
  have hvisit := visits_remove (t.modify r f hf) (hr.modify r f) p
  obtain ⟨a, ha⟩ := hr
  constructor
  · rw [hvisit.list_eq, list_modify]
    simp [ha]
  · intro q
    rw [hvisit.get_eq]
    rcases eq_or_ne q r with rfl | hq
    · simp [ha]
    · simp [hq, Heap.get_modify_of_ne]

/-- A loop that removes some of the objects. -/
theorem objects_foldl_remove (t : Index key) (p : α → Bool) :
    (t.list.foldl (fun t r => if (t.heap.get r).any p then t.remove r else t) t).objects =
      t.objects.filter fun a => !p a := by
  rw [objects_foldl fun t r hr => t.visits_remove hr p, List.filterMap_eq_filter]

end Index
end Torrentkino
