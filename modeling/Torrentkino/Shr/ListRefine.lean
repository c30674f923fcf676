import Torrentkino.Shr.List

/-!
# Lists on the heap against abstract sequences

For each operation of `shr/list.c` a lemma says what it does to the sequence a
list represents and which item it returns.  All insertions are one splice
between a front and a rest (`represents_splice`), all deletions are one unhook
(`represents_unhook`); the four cases of `list_del` differ only in what becomes
of the header.

**Results.**
* `listStart_spec`, `listStop_spec`, `listPut_spec`, `listIns_spec`,
  `listAdd_spec`, `listDel_spec`, `listRotate_spec`: one call.
* `listDel_fault`: deleting the item the header names, when it has a
  predecessor, leaves the header dangling, and `list_start` runs into it.
* `listOps_refine_iff`: whole sequences of calls.
-/

namespace Torrentkino

open Chain Decimal Simulation

variable {α : Type} {list : ObjList α} {q : ItemSeq α}

/-! ## Walking -/

/-- The header of a nonempty list names one of the items. -/
theorem Represents.exists_item
    (hrep : Represents list q) (hne : q.items ≠ []) :
    ∃ r ∈ refs q.items, list.item = some r := by
  cases hitem : list.item with
  | none =>
      exact absurd (hrep.item_none.mp hitem) hne
  | some r =>
      exact ⟨r, hrep.item_mem r hitem, rfl⟩

/-- `list_start` returns the first item and moves the header there. -/
theorem listStart_spec (hrep : Represents list q) :
    listStart list =
      .ok (first none q.items, { list with item := first none q.items }) := by
  cases hq : q.items with
  | nil =>
      have hitem := hrep.item_none.mpr hq
      cases list
      cases hitem
      rfl
  | cons c cs =>
      obtain ⟨r, hr, hitem⟩ := hrep.exists_item (by simp [hq])
      have hlen := length_le_fresh hrep.chain hrep.nodup
      have hseg := hrep.chain
      rw [hq] at hr hseg hlen
      have hwalk : walkBack list.heap (list.heap.fresh + 1) r = .ok c.1 :=
        walkBack_of_segment hseg hr (Nat.lt_succ_of_lt hlen)
      rw [listStart, hitem]
      dsimp only
      rw [hwalk]
      rfl

/-- Moving the header to the first item changes nothing else. -/
theorem represents_first (hrep : Represents list q) :
    Represents { list with item := first none q.items } q where
  chain := hrep.chain
  nodup := hrep.nodup
  size_eq := hrep.size_eq
  item_none := by
    cases hq : q.items <;> simp
  item_mem := by
    intro r hr
    exact (first_mem hr).resolve_right (by simp)
  fresh_eq := hrep.fresh_eq

/-- `list_stop` returns the last item. -/
theorem listStop_spec (hrep : Represents list q) :
    listStop list = .ok (last none q.items) := by
  rcases List.eq_nil_or_concat q.items with hq | ⟨cs, c, hq⟩
  · rw [listStop, hrep.item_none.mpr hq, hq]
    rfl
  · rw [List.concat_eq_append] at hq
    obtain ⟨r, hr, hitem⟩ := hrep.exists_item (by simp [hq])
    have hlen := length_le_fresh hrep.chain hrep.nodup
    have hseg := hrep.chain
    rw [hq] at hr hseg hlen
    have hwalk : walkForth list.heap (list.heap.fresh + 1) r = .ok c.1 := by
      refine walkForth_of_segment hseg hr ?_
      simp at hlen
      exact Nat.lt_succ_of_lt hlen
    rw [listStop, hitem]
    dsimp only
    rw [hwalk, hq, last_append, last_cons_nil]
    rfl

/-! ## Insertion -/

/-- The abstract sequence with a new item between a front and a rest. -/
def ItemSeq.spliced (q : ItemSeq α) (u w : List (Ref × α)) (payload : α) : ItemSeq α :=
  ⟨u ++ (q.fresh, payload) :: w, q.fresh + 1⟩

/-- Nothing outside the front and the rest touches a splice: a heap on which
both are linked to the new item represents the longer sequence. -/
theorem represents_splice
    {u w : List (Ref × α)} {payload : α} {heap : Heap (ObjItem α)}
    {item : Option Ref} {size : Int}
    (hrep : Represents list q)
    (hq : q.items = u ++ w)
    (hcell : heap.get q.fresh = some ⟨payload, first none w, last none u⟩)
    (hu : Segment heap none u (some q.fresh))
    (hw : Segment heap (some q.fresh) w none)
    (hfresh : heap.fresh = q.fresh + 1)
    (hsize : size = list.size + 1)
    (hitem : ∃ r ∈ q.fresh :: refs q.items, item = some r) :
    Represents ⟨heap, item, size⟩ (q.spliced u w payload) where
  chain := by
    rw [ItemSeq.spliced, segment_append]
    exact ⟨hu, hcell, hw⟩
  nodup := by
    have hnodup := hrep.nodup
    have hlt := lt_fresh_of_segment hrep.chain
    rw [hrep.fresh_eq, hq, refs_append] at hlt
    rw [hq, refs_append] at hnodup
    rw [ItemSeq.spliced, refs_append, refs_cons,
      (List.perm_middle).nodup_iff, List.nodup_cons]
    refine ⟨?_, hnodup⟩
    intro hmem
    exact Nat.lt_irrefl _ (hlt _ hmem)
  size_eq := by
    rw [hsize, hrep.size_eq, hq]
    simp [ItemSeq.spliced, Int.add_assoc]
  item_none := by
    obtain ⟨r, _, hr⟩ := hitem
    simp [hr, ItemSeq.spliced]
  item_mem := by
    intro r hr
    obtain ⟨r', hr', hsome⟩ := hitem
    cases hsome.symm.trans hr
    rw [hq] at hr'
    simpa [ItemSeq.spliced, or_left_comm] using hr'
  fresh_eq := hfresh

/-- In a chain the front, the rest and what is not yet allocated are apart. -/
theorem Represents.apart
    {u w : List (Ref × α)}
    (hrep : Represents list q) (hq : q.items = u ++ w) :
    (refs u).Nodup ∧ (refs w).Nodup ∧
      (∀ r ∈ refs u, first none w ≠ some r) ∧
      (∀ r ∈ refs w, last none u ≠ some r) ∧
      first none w ≠ some q.fresh ∧ last none u ≠ some q.fresh := by
  have hnodup := hrep.nodup
  have hlt := lt_fresh_of_segment hrep.chain
  rw [hrep.fresh_eq] at hlt
  rw [hq, refs_append] at hnodup hlt
  obtain ⟨hu, hw, hdisj⟩ := List.nodup_append.mp hnodup
  refine ⟨hu, hw, ?_, ?_, ?_, ?_⟩
  · intro r hr hfirst
    exact hdisj r hr r ((first_mem hfirst).resolve_right (by simp)) rfl
  · intro r hr hlast
    exact hdisj r ((last_mem hlast).resolve_right (by simp)) r hr rfl
  · intro hfirst
    have hmem := (first_mem hfirst).resolve_right (by simp)
    exact Nat.lt_irrefl _ (hlt q.fresh (List.mem_append_right _ hmem))
  · intro hlast
    have hmem := (last_mem hlast).resolve_right (by simp)
    exact Nat.lt_irrefl _ (hlt q.fresh (List.mem_append_left _ hmem))

/-- The heap after an insertion between `u` and `w`: the new item, and both
neighbours hooked to it.  `list_ins` and `list_add` hook them in different
orders. -/
theorem represents_hooked
    {u w : List (Ref × α)} {payload : α} {heap : Heap (ObjItem α)}
    {item : Option Ref}
    (hrep : Represents list q)
    (hq : q.items = u ++ w)
    (hheap :
      let new := list.heap.alloc ⟨payload, first none w, last none u⟩
      heap = hookNext (hookPrev new (first none w) (some q.fresh))
          (last none u) (some q.fresh) ∨
      heap = hookPrev (hookNext new (last none u) (some q.fresh))
          (first none w) (some q.fresh))
    (hitem : ∃ r ∈ q.fresh :: refs q.items, item = some r) :
    Represents ⟨heap, item, list.size + 1⟩ (q.spliced u w payload) := by
  obtain ⟨hnu, hnw, hfu, hlw, hff, hlf⟩ := hrep.apart hq
  have hseg := hrep.chain
  rw [hq, segment_append] at hseg
  obtain ⟨hu, hw⟩ := hseg
  have hu' := segment_alloc ⟨payload, first none w, last none u⟩ hu
  have hw' := segment_alloc ⟨payload, first none w, last none u⟩ hw
  have hcell := Heap.get_alloc_self list.heap
    (⟨payload, first none w, last none u⟩ : ObjItem α)
  rw [hrep.fresh_eq] at hcell
  have hfresh := hrep.fresh_eq
  rcases hheap with rfl | rfl
  · refine represents_splice hrep hq ?_ ?_ ?_ (by simp [hfresh]) rfl hitem
    · rw [get_hookNext_of_ne _ _ hlf, get_hookPrev_of_ne _ _ hff, hcell]
    · exact segment_hookNext _ (segment_hookPrev_of_notMem hu' hfu) hnu
    · exact segment_hookNext_of_notMem (segment_hookPrev _ hw' hnw) hlw
  · refine represents_splice hrep hq ?_ ?_ ?_ (by simp [hfresh]) rfl hitem
    · rw [get_hookPrev_of_ne _ _ hff, get_hookNext_of_ne _ _ hlf, hcell]
    · exact segment_hookPrev_of_notMem (segment_hookNext _ hu' hnu) hfu
    · exact segment_hookPrev _ (segment_hookNext_of_notMem hw' hlw) hnw

/-- `list_put` appends. -/
theorem listPut_spec
    (payload : α)
    (hrep : Represents list q) (hsize : list.size ≠ longMax) :
    ∃ list', listPut list payload = .ok (some q.fresh, list') ∧
      Represents list' (q.spliced q.items [] payload) := by
  have hfresh := hrep.fresh_eq
  rw [listPut, if_neg hsize]
  rcases List.eq_nil_or_concat q.items with hq | ⟨cs, c, hq⟩
  · have hone : (1 : Int) = list.size + 1 := by
      simp [hrep.size_eq, hq]
    rw [hrep.item_none.mpr hq]
    dsimp only
    refine ⟨_, by rw [hfresh], ?_⟩
    rw [hone]
    refine represents_hooked hrep (by simp) (.inl ?_) ⟨q.fresh, by simp, rfl⟩
    rw [hq]
    rfl
  · rw [List.concat_eq_append] at hq
    obtain ⟨r, hr, hitem⟩ := hrep.exists_item (by simp [hq])
    have hlast : last none q.items = some c.1 := by
      simp [hq]
    have hlive : list.heap.Live c.1 :=
      live_of_segment hrep.chain c.1 (by simp [hq])
    have hstore := storeNext_of_live (some q.fresh)
      (hlive.alloc ⟨payload, none, some c.1⟩)
    rw [hitem]
    dsimp only
    rw [listStop_spec hrep, hlast, hfresh]
    dsimp only [bind, Except.bind]
    rw [hstore]
    refine ⟨_, rfl, ?_⟩
    refine represents_hooked hrep (by simp) (.inl ?_) ⟨r, by simp [hr], rfl⟩
    rw [hlast]
    rfl

/-- An item of the sequence splits it. -/
theorem Represents.split
    {r : Ref} (hrep : Represents list q) (hr : r ∈ refs q.items) :
    ∃ u x w, q.items = u ++ x :: w ∧ x.1 = r ∧ r ∉ refs u := by
  obtain ⟨x, hx, rfl⟩ := List.mem_map.mp hr
  obtain ⟨u, w, hq⟩ := List.append_of_mem hx
  refine ⟨u, x, w, hq, rfl, ?_⟩
  have hnodup := hrep.nodup
  rw [hq, refs_append] at hnodup
  intro hmem
  exact (List.nodup_append.mp hnodup).2.2 x.1 hmem x.1 (by simp) rfl

theorem Represents.size_ne_zero
    {r : Ref} (hrep : Represents list q) (hr : r ∈ refs q.items) :
    list.size ≠ 0 := by
  rw [hrep.size_eq]
  cases hq : q.items with
  | nil =>
      simp [hq] at hr
  | cons x xs =>
      simp
      omega

/-- `list_ins` inserts in front of an item. -/
theorem listIns_spec
    (payload : α) {u w : List (Ref × α)} {x : Ref × α}
    (hrep : Represents list q) (hsize : list.size ≠ longMax)
    (hq : q.items = u ++ x :: w) :
    ∃ list', listIns list (some x.1) payload = .ok (some q.fresh, list') ∧
      Represents list' (q.spliced u (x :: w) payload) := by
  have hmem : x.1 ∈ refs q.items := by
    simp [hq]
  obtain ⟨r, hr, hitem⟩ := hrep.exists_item (by simp [hq])
  have hseg := hrep.chain
  rw [hq] at hseg
  have hlive := live_of_segment hrep.chain
  have hhere := storePrev_of_live (some q.fresh)
    ((hlive x.1 hmem).alloc ⟨payload, some x.1, last none u⟩)
  rw [listIns, if_neg hsize, if_neg (hrep.size_ne_zero hmem), hrep.fresh_eq]
  dsimp only
  rw [deref_of_get (get_of_segment hseg)]
  dsimp only [bind, Except.bind]
  rw [hhere]
  cases hlast : last none u with
  | none =>
      refine ⟨_, rfl, ?_⟩
      refine represents_hooked hrep hq (.inl ?_) ⟨r, by simp [hr], hitem⟩
      rw [hlast]
      rfl
  | some p =>
      have hp : p ∈ refs q.items := by
        simp [hq, (last_mem hlast).resolve_right (by simp)]
      have hprev := storeNext_of_live (some q.fresh)
        (live_hookPrev ((hlive p hp).alloc ⟨payload, some x.1, some p⟩)
          (some x.1) (some q.fresh))
      dsimp only [Option.isSome_some, if_true]
      rw [hprev]
      refine ⟨_, rfl, ?_⟩
      refine represents_hooked hrep hq (.inl ?_) ⟨r, by simp [hr], hitem⟩
      rw [hlast]
      rfl

/-- `list_add` inserts behind an item. -/
theorem listAdd_spec
    (payload : α) {u w : List (Ref × α)} {x : Ref × α}
    (hrep : Represents list q) (hsize : list.size ≠ longMax)
    (hq : q.items = u ++ x :: w) :
    ∃ list', listAdd list (some x.1) payload = .ok (some q.fresh, list') ∧
      Represents list' (q.spliced (u ++ [x]) w payload) := by
  have hmem : x.1 ∈ refs q.items := by
    simp [hq]
  have hq' : q.items = (u ++ [x]) ++ w := by
    simp [hq]
  obtain ⟨r, hr, hitem⟩ := hrep.exists_item (by simp [hq])
  have hseg := hrep.chain
  rw [hq] at hseg
  have hlive := live_of_segment hrep.chain
  have hhere := storeNext_of_live (some q.fresh)
    ((hlive x.1 hmem).alloc ⟨payload, first none w, some x.1⟩)
  rw [listAdd, if_neg hsize, if_neg (hrep.size_ne_zero hmem), hrep.fresh_eq]
  dsimp only
  rw [deref_of_get (get_of_segment hseg)]
  dsimp only [bind, Except.bind]
  rw [hhere]
  cases hfirst : first none w with
  | none =>
      refine ⟨_, rfl, ?_⟩
      refine represents_hooked hrep hq' (.inr ?_) ⟨r, by simp [hr], hitem⟩
      rw [hfirst, last_append]
      rfl
  | some n =>
      have hn : n ∈ refs q.items := by
        simp [hq, (first_mem hfirst).resolve_right (by simp)]
      have hnext := storePrev_of_live (some q.fresh)
        (live_hookNext ((hlive n hn).alloc ⟨payload, some n, some x.1⟩)
          (some x.1) (some q.fresh))
      dsimp only [Option.isSome_some, if_true]
      rw [hnext]
      refine ⟨_, rfl, ?_⟩
      refine represents_hooked hrep hq' (.inr ?_) ⟨r, by simp [hr], hitem⟩
      rw [hfirst, last_append]
      rfl

/-! ## Deletion -/

/-- All four cases of `list_del` hook the neighbours to each other. -/
theorem listUnhook_of_live
    {next prev : Option Ref}
    (hnext : ∀ r, next = some r → list.heap.Live r)
    (hprev : ∀ r, prev = some r → list.heap.Live r) :
    listUnhook list next prev =
      .ok (hookPrev (hookNext list.heap prev next) next prev,
        if prev = none then next else list.item) := by
  cases prev with
  | none =>
      cases next with
      | none =>
          rfl
      | some n =>
          rw [listUnhook, storePrev_of_live none (hnext n rfl)]
          rfl
  | some p =>
      cases next with
      | none =>
          rw [listUnhook, storeNext_of_live none (hprev p rfl)]
          rfl
      | some n =>
          rw [listUnhook, storeNext_of_live (some n) (hprev p rfl)]
          dsimp only [bind, Except.bind]
          rw [storePrev_of_live (some p) (live_hookNext (hnext n rfl) _ _)]
          rfl

/-- The sequence without the item between `u` and `w`. -/
theorem represents_unhook
    {u w : List (Ref × α)} {x : Ref × α} {item : Option Ref}
    (hrep : Represents list q)
    (hq : q.items = u ++ x :: w)
    (hnone : item = none ↔ u ++ w = [])
    (hmem : ∀ r, item = some r → r ∈ refs (u ++ w)) :
    Represents
      ⟨(hookPrev (hookNext list.heap (last none u) (first none w))
          (first none w) (last none u)).free x.1, item, list.size - 1⟩
      { q with items := u ++ w } := by
  have hnodup := hrep.nodup
  rw [hq, refs_append, refs_cons, (List.perm_middle).nodup_iff,
    List.nodup_cons, List.nodup_append] at hnodup
  obtain ⟨hx, hnu, hnw, hdisj⟩ := hnodup
  rw [List.mem_append, not_or] at hx
  have hseg := hrep.chain
  rw [hq, segment_append] at hseg
  obtain ⟨hu, -, hw⟩ := hseg
  have hfu : ∀ r ∈ refs u, first none w ≠ some r := by
    intro r hr hfirst
    exact hdisj r hr r ((first_mem hfirst).resolve_right (by simp)) rfl
  have hlw : ∀ r ∈ refs w, last none u ≠ some r := by
    intro r hr hlast
    exact hdisj r ((last_mem hlast).resolve_right (by simp)) r hr rfl
  refine ⟨?_, ?_, ?_, hnone, hmem, by simpa using hrep.fresh_eq⟩
  · rw [segment_append]
    constructor
    · exact segment_free
        (segment_hookPrev_of_notMem (segment_hookNext _ hu hnu) hfu) hx.1
    · exact segment_free
        (segment_hookPrev _ (segment_hookNext_of_notMem hw hlw) hnw) hx.2
  · rw [refs_append, List.nodup_append]
    exact ⟨hnu, hnw, hdisj⟩
  · rw [hrep.size_eq, hq]
    simp
    omega

/-- What `list_del` does up to its call of `list_start`. -/
theorem listDel_eq
    {u w : List (Ref × α)} {x : Ref × α}
    (hrep : Represents list q) (hq : q.items = u ++ x :: w) :
    listDel list (some x.1) =
      listStart
        ⟨(hookPrev (hookNext list.heap (last none u) (first none w))
            (first none w) (last none u)).free x.1,
          if last none u = none then first none w else list.item,
          list.size - 1⟩ := by
  have hseg := hrep.chain
  have hlive := live_of_segment hrep.chain
  rw [hq] at hseg hlive
  have hnext : ∀ r, first none w = some r → list.heap.Live r := by
    intro r hr
    exact hlive r (by simp [(first_mem hr).resolve_right (by simp)])
  have hprev : ∀ r, last none u = some r → list.heap.Live r := by
    intro r hr
    exact hlive r (by simp [(last_mem hr).resolve_right (by simp)])
  rw [listDel, deref_of_get (get_of_segment hseg)]
  dsimp only [bind, Except.bind]
  rw [listUnhook_of_live hnext hprev]

/-- The header that `list_del` leaves names one of the other items, unless the
header names the deleted item and that item has a predecessor. -/
theorem cursor_after_unhook
    {u w : List (Ref × α)} {x : Ref × α} {item : Option Ref}
    (hrep : Represents list q) (hq : q.items = u ++ x :: w)
    (hcursor : list.item = some x.1 → last none u = none)
    (hitem : item = if last none u = none then first none w else list.item) :
    (item = none ↔ u ++ w = []) ∧ ∀ r, item = some r → r ∈ refs (u ++ w) := by
  rcases List.eq_nil_or_concat u with rfl | ⟨u', z, rfl⟩
  · cases w <;> simp [hitem]
  · have hlast : last none (u'.concat z) = some z.1 := by
      simp
    rw [hlast, if_neg (by simp)] at hitem
    subst hitem
    constructor
    · exact ⟨fun h => absurd (hrep.item_none.mp h) (by simp [hq]), by simp⟩
    · intro r hr
      have hmem := hrep.item_mem r hr
      have hrx : r ≠ x.1 := by
        rintro rfl
        rw [hcursor hr] at hlast
        cases hlast
      rw [hq] at hmem
      simpa [hrx] using hmem

/-- `list_del` removes the item and returns the first of the others, unless the
header names that item and the item has a predecessor. -/
theorem listDel_spec
    {u w : List (Ref × α)} {x : Ref × α}
    (hrep : Represents list q) (hq : q.items = u ++ x :: w)
    (hcursor : list.item = some x.1 → last none u = none) :
    ∃ list', listDel list (some x.1) = .ok (first none (u ++ w), list') ∧
      Represents list' { q with items := u ++ w } := by
  obtain ⟨hnone, hmem⟩ := cursor_after_unhook hrep hq hcursor rfl
  have hrep' := represents_unhook hrep hq hnone hmem
  rw [listDel_eq hrep hq]
  exact ⟨_, listStart_spec hrep', represents_first hrep'⟩

/-- When the header names the deleted item and that item has a predecessor,
`list_start` reads the freed item. -/
theorem listDel_fault
    {u w : List (Ref × α)} {x : Ref × α}
    (hrep : Represents list q) (hq : q.items = u ++ x :: w)
    (hitem : list.item = some x.1) (hprev : last none u ≠ none) :
    listDel list (some x.1) = .error (.freed x.1) := by
  rw [listDel_eq hrep hq, if_neg hprev, hitem]
  simp [listStart, walkBack, deref, bind, Except.bind]

/-! ## Rotation -/

/-- The heap after the four assignments of `list_rotate` to the first item `c`,
its successor `y` and the last item `z`. -/
def rotatedHeap (heap : Heap (ObjItem α)) (c y z : Ref) : Heap (ObjItem α) :=
  let heap := hookPrev heap (some y) none
  let heap := hookNext heap (some c) none
  let heap := hookPrev heap (some c) (some z)
  hookNext heap (some z) (some c)

/-- With two items or more `list_rotate` performs these assignments. -/
theorem listRotate_eq
    {c z : Ref × α} {ys : List (Ref × α)} {y : Ref}
    (hrep : Represents list q)
    (hq : q.items = c :: (ys ++ [z]))
    (hy : first none (ys ++ [z]) = some y) :
    listRotate list =
      .ok { list with heap := rotatedHeap list.heap c.1 y z.1, item := some y } := by
  have hstop := listStop_spec (represents_first hrep)
  have hseg := hrep.chain
  have hlive := live_of_segment hrep.chain
  have hlast : last none (c :: (ys ++ [z])) = some z.1 := by
    simp [last]
  rw [hq] at hseg hlive hstop
  rw [first_cons, hlast] at hstop
  have hly : list.heap.Live y :=
    hlive y (List.mem_cons_of_mem _ ((first_mem hy).resolve_right (by simp)))
  have hlc : list.heap.Live c.1 := hlive c.1 (by simp)
  have hlz : list.heap.Live z.1 := hlive z.1 (by simp)
  have h₁ := storePrev_of_live none hly
  have h₂ := storeNext_of_live none (live_hookPrev hlc (some y) none)
  have h₃ := storePrev_of_live (some z.1)
    (live_hookNext (live_hookPrev hlc (some y) none) (some c.1) none)
  have h₄ := storeNext_of_live (some c.1)
    (live_hookPrev (live_hookNext (live_hookPrev hlz (some y) none)
      (some c.1) none) (some c.1) (some z.1))
  rw [listRotate, if_neg (by simp [hrep.size_eq, hq]), listStart_spec hrep, hq]
  dsimp only [bind, Except.bind]
  rw [first_cons, hstop]
  dsimp only
  rw [deref_of_get hseg.1, hy]
  dsimp only
  rw [h₁]
  dsimp only
  rw [h₂]
  dsimp only
  rw [h₃]
  dsimp only
  rw [h₄]
  rfl

/-- After them the first item is the last one. -/
theorem segment_rotatedHeap
    {heap : Heap (ObjItem α)} {c z : Ref × α} {ys : List (Ref × α)} {y : Ref}
    (hseg : Segment heap none (c :: (ys ++ [z])) none)
    (hnodup : (refs (c :: (ys ++ [z]))).Nodup)
    (hy : first none (ys ++ [z]) = some y) :
    Segment (rotatedHeap heap c.1 y z.1) none ((ys ++ [z]) ++ [c]) none := by
  obtain ⟨hc, hnys⟩ := List.nodup_cons.mp hnodup
  obtain ⟨hcell, hrest⟩ := hseg
  have hother : ∀ r ∈ refs (ys ++ [z]), some c.1 ≠ some r := by
    rintro r hr ⟨⟩
    exact hc hr
  have hcz : z.1 ≠ c.1 := by
    intro hzc
    exact hc (by simp [← hzc])
  have hyc : y ≠ c.1 := by
    rintro rfl
    exact hc ((first_mem hy).resolve_right (by simp))
  have hys := segment_hookPrev none hrest hnys
  rw [hy] at hys
  have hys' := segment_hookNext (some c.1)
    (segment_hookPrev_of_notMem (m := some z.1)
      (segment_hookNext_of_notMem (m := none) hys hother) hother) hnys
  rw [last_append, last_cons_nil] at hys'
  rw [segment_append]
  refine ⟨hys', ?_, trivial⟩
  rw [rotatedHeap, get_hookNext_of_ne _ _ (by simpa using hcz), hookPrev,
    Heap.get_modify_self, hookNext, Heap.get_modify_self,
    get_hookPrev_of_ne _ _ (by simpa using hyc), hcell]
  simp

/-- `list_rotate` moves the first item to the end. -/
theorem listRotate_spec (hrep : Represents list q) :
    ∃ list', listRotate list = .ok list' ∧
      Represents list' { q with items := ItemSeq.rotated q.items } := by
  rcases hq : q.items with _ | ⟨c, cs⟩
  · rw [listRotate, if_pos (by simp [hrep.size_eq, hq])]
    exact ⟨list, rfl, by cases q; cases hq; exact hrep⟩
  rcases List.eq_nil_or_concat cs with rfl | ⟨ys, z, rfl⟩
  · rw [listRotate, if_pos (by simp [hrep.size_eq, hq])]
    exact ⟨list, rfl, by cases q; cases hq; exact hrep⟩
  rw [List.concat_eq_append] at hq ⊢
  obtain ⟨y, hy⟩ : ∃ y, first none (ys ++ [z]) = some y := by
    cases ys with
    | nil =>
        exact ⟨z.1, rfl⟩
    | cons y ys =>
        exact ⟨y.1, rfl⟩
  have hseg := hrep.chain
  have hnodup := hrep.nodup
  rw [hq] at hseg hnodup
  refine ⟨_, listRotate_eq hrep hq hy, ?_⟩
  refine ⟨segment_rotatedHeap hseg hnodup hy, ?_, ?_, ?_, ?_, ?_⟩
  · change (refs ((ys ++ [z]) ++ [c])).Nodup
    rw [refs_append, refs_cons, refs_nil,
      (List.perm_append_singleton _ _).nodup_iff]
    exact hnodup
  · rw [hrep.size_eq, hq]
    simp [ItemSeq.rotated, Int.add_assoc]
  · simp [ItemSeq.rotated]
  · rintro r ⟨⟩
    have hmem := (first_mem hy).resolve_right (by simp)
    rw [ItemSeq.rotated, refs_append]
    exact List.mem_append_left _ hmem
  · simpa [rotatedHeap] using hrep.fresh_eq

/-! ## Runs -/

namespace ItemSeq

theorem insertBefore_split
    {u w : List (Ref × α)} {x new : Ref × α} (hx : x.1 ∉ refs u) :
    insertBefore x.1 new (u ++ x :: w) = u ++ new :: x :: w := by
  induction u with
  | nil =>
      simp [insertBefore]
  | cons y u ih =>
      simp only [refs_cons, List.mem_cons, not_or] at hx
      simp [insertBefore, Ne.symm hx.1, ih hx.2]

theorem insertBehind_split
    {u w : List (Ref × α)} {x new : Ref × α} (hx : x.1 ∉ refs u) :
    insertBehind x.1 new (u ++ x :: w) = (u ++ [x]) ++ new :: w := by
  induction u with
  | nil =>
      simp [insertBehind]
  | cons y u ih =>
      simp only [refs_cons, List.mem_cons, not_or] at hx
      simp [insertBehind, Ne.symm hx.1, ih hx.2]

theorem remove_split
    {u w : List (Ref × α)} {x : Ref × α}
    (hnodup : (refs (u ++ x :: w)).Nodup) :
    remove x.1 (u ++ x :: w) = u ++ w := by
  rw [refs_append, refs_cons, (List.perm_middle).nodup_iff, List.nodup_cons,
    List.mem_append, not_or] at hnodup
  have hkeep : ∀ ys : List (Ref × α), x.1 ∉ refs ys → remove x.1 ys = ys := by
    intro ys hys
    refine List.filter_eq_self.mpr ?_
    intro y hy
    have hne : y.1 ≠ x.1 := by
      intro heq
      exact hys (heq ▸ List.mem_map_of_mem hy)
    simpa using hne
  have hx : remove x.1 (x :: w) = remove x.1 w := by
    simp [remove]
  have happend : remove x.1 (u ++ x :: w) = remove x.1 u ++ remove x.1 (x :: w) :=
    List.filter_append u (x :: w)
  rw [happend, hx, hkeep u hnodup.1.1, hkeep w hnodup.1.2]

theorem growAt_of_nil
    (payload : α) (here : Option Ref)
    (place : Ref → Ref × α → List (Ref × α) → List (Ref × α))
    (hq : q.items = []) :
    q.growAt payload here place = q.grow payload fun new xs => xs ++ [new] := by
  simp [growAt, hq]

theorem growAt_of_mem
    (payload : α) {r : Ref}
    (place : Ref → Ref × α → List (Ref × α) → List (Ref × α))
    (hr : r ∈ refs q.items) :
    q.growAt payload (some r) place = q.grow payload (place r) := by
  cases hq : q.items with
  | nil =>
      simp [hq] at hr
  | cons y ys =>
      simp [growAt, hq]

end ItemSeq

/-- The empty list represents the empty sequence. -/
theorem represents_init : Represents (listInit : ObjList α) ItemSeq.init where
  chain := trivial
  nodup := List.nodup_nil
  size_eq := rfl
  item_none := by simp [listInit, ItemSeq.init]
  item_mem := by simp [listInit]
  fresh_eq := rfl

/-- The item in front of which `u` ends has no predecessor iff `u` is empty. -/
theorem KeepsCursor.last_eq_none
    {u w : List (Ref × α)} {x : Ref × α}
    (hrep : Represents list q) (hq : q.items = u ++ x :: w) :
    KeepsCursor list (.del (some x.1)) ↔
      (list.item = some x.1 → last none u = none) := by
  have hseg := hrep.chain
  rw [hq] at hseg
  simp [KeepsCursor, get_of_segment hseg]

/-- `list_put`, whether or not the list is full. -/
theorem listPut_refines
    (payload : α) (hrep : Represents list q) :
    ∃ item list', listPut list payload = .ok (item, list') ∧
      Represents list' (q.grow payload fun new xs => xs ++ [new]) := by
  by_cases hfull : list.size = longMax
  · refine ⟨none, list, by rw [listPut, if_pos hfull], ?_⟩
    rw [ItemSeq.grow, if_pos (by rw [← hrep.size_eq, hfull])]
    exact hrep
  · obtain ⟨list', hput, hrep'⟩ := listPut_spec payload hrep hfull
    refine ⟨_, list', hput, ?_⟩
    rw [ItemSeq.grow, if_neg (by rwa [← hrep.size_eq])]
    exact hrep'

/-- An insertion next to an item, whether or not the list is full or empty. -/
theorem listInsert_refines
    (insert : ObjList α → Option Ref → α → Except Fault (Option Ref × ObjList α))
    (place : Ref → Ref × α → List (Ref × α) → List (Ref × α))
    {here : Option Ref} (payload : α)
    (hfull : list.size = longMax → insert list here payload = .ok (none, list))
    (hempty : list.size = 0 → insert list here payload = listPut list payload)
    (hplace : ∀ u x w, q.items = u ++ x :: w → x.1 ∉ refs u →
      list.size ≠ longMax →
      ∃ list', insert list (some x.1) payload = .ok (some q.fresh, list') ∧
        Represents list' ⟨place x.1 (q.fresh, payload) q.items, q.fresh + 1⟩)
    (hrep : Represents list q)
    (hhere : q.items = [] ∨ ∃ r ∈ refs q.items, here = some r) :
    ∃ item list', insert list here payload = .ok (item, list') ∧
      Represents list' (q.growAt payload here place) := by
  rcases hhere with hq | ⟨r, hr, rfl⟩
  · rw [hempty (by simp [hrep.size_eq, hq]), ItemSeq.growAt_of_nil _ _ _ hq]
    exact listPut_refines payload hrep
  · rw [ItemSeq.growAt_of_mem _ _ hr, ItemSeq.grow, ← hrep.size_eq]
    by_cases hmax : list.size = longMax
    · rw [if_pos hmax]
      exact ⟨none, list, hfull hmax, hrep⟩
    · rw [if_neg hmax]
      obtain ⟨u, x, w, hq, rfl, hxu⟩ := hrep.split hr
      obtain ⟨list', hins, hrep'⟩ := hplace u x w hq hxu hmax
      exact ⟨_, list', hins, hrep'⟩

/-- One call. -/
theorem listStep_simulates :
    Simulates (ε := Fault) (Represents (α := α)) ItemSeq.Names KeepsCursor
      listStep ItemSeq.step where
  step_ok := by
    intro list q op hrep hnames hcursor
    cases op with
    | put payload =>
        obtain ⟨item, list', hput, hrep'⟩ := listPut_refines payload hrep
        exact ⟨list', by rw [listStep, hput]; rfl, hrep'⟩
    | ins here payload =>
        obtain ⟨item, list', hins, hrep'⟩ :=
          listInsert_refines listIns ItemSeq.insertBefore payload
            (fun h => by rw [listIns, if_pos h])
            (fun h => by rw [listIns, if_neg (by rw [h]; decide), if_pos h])
            (fun u x w hq hxu hmax => by
              rw [hq, ItemSeq.insertBefore_split hxu]
              exact listIns_spec payload hrep hmax hq)
            hrep hnames
        exact ⟨list', by rw [listStep, hins]; rfl, hrep'⟩
    | add here payload =>
        obtain ⟨item, list', hadd, hrep'⟩ :=
          listInsert_refines listAdd ItemSeq.insertBehind payload
            (fun h => by rw [listAdd, if_pos h])
            (fun h => by rw [listAdd, if_neg (by rw [h]; decide), if_pos h])
            (fun u x w hq hxu hmax => by
              rw [hq, ItemSeq.insertBehind_split hxu]
              exact listAdd_spec payload hrep hmax hq)
            hrep hnames
        exact ⟨list', by rw [listStep, hadd]; rfl, hrep'⟩
    | del item =>
        rcases hnames with rfl | ⟨r, hr, rfl⟩
        · exact ⟨list, rfl, hrep⟩
        · obtain ⟨u, x, w, hq, rfl, -⟩ := hrep.split hr
          obtain ⟨list', hdel, hrep'⟩ := listDel_spec hrep hq
            ((KeepsCursor.last_eq_none hrep hq).mp hcursor)
          refine ⟨list', by rw [listStep, hdel]; rfl, ?_⟩
          have hnodup := hrep.nodup
          rw [hq] at hnodup
          rw [ItemSeq.step, hq, ItemSeq.remove_split hnodup]
          exact hrep'
    | rotate =>
        exact listRotate_spec hrep
    | start =>
        exact ⟨_, by rw [listStep, listStart_spec hrep]; rfl, represents_first hrep⟩
    | stop =>
        exact ⟨list, by rw [listStep, listStop_spec hrep]; rfl, hrep⟩
  step_fault := by
    intro list q op hrep hnames hcursor
    cases op with
    | del item =>
        rcases hnames with rfl | ⟨r, hr, rfl⟩
        · exact absurd trivial hcursor
        · obtain ⟨u, x, w, hq, rfl, -⟩ := hrep.split hr
          rw [KeepsCursor.last_eq_none hrep hq, Classical.not_imp] at hcursor
          refine ⟨.freed x.1, ?_⟩
          rw [listStep, listDel_fault hrep hq hcursor.1 hcursor.2]
          rfl
    | _ =>
        exact absurd trivial hcursor

/-- Exactly the sequences of calls in which no `list_del` deletes the item the
header names while it has a predecessor behave like the abstract sequence: they
return, and the list they leave represents the abstract result. -/
theorem listOps_refine_iff
    (ops : List (ListOp α))
    (hnames : Admissible ItemSeq.Names ItemSeq.step ItemSeq.init ops) :
    (∃ list, run listStep listInit ops = .ok list ∧
        Represents list (runAbs ItemSeq.step ItemSeq.init ops)) ↔
      Along KeepsCursor listStep listInit ops :=
  run_related_iff listStep_simulates ops represents_init hnames

/-- `list_put`, `list_ins` in front of it, `list_rotate` and `list_del` of the
item the header has moved to. -/
theorem listOps_refine_rotate :
    ∃ list, run listStep listInit
        [.put 7, .ins (some 0) 8, .rotate, .del (some 0)] = .ok list ∧
      Represents list ⟨[(1, 8)], 2⟩ := by
  refine (listOps_refine_iff [.put 7, .ins (some 0) 8, .rotate, .del (some 0)] ?_).mpr ?_
  · simp [Admissible, ItemSeq.Names, ItemSeq.step, ItemSeq.init, ItemSeq.grow,
      ItemSeq.growAt, ItemSeq.insertBefore, ItemSeq.rotated, longMax]
  · refine ⟨trivial, ?_⟩
    rintro _ ⟨⟩
    refine ⟨trivial, ?_⟩
    rintro _ ⟨⟩
    refine ⟨trivial, ?_⟩
    rintro _ ⟨⟩
    refine ⟨?_, fun _ _ => trivial⟩
    rintro - cell ⟨⟩
    rfl

/-- `list_put`, `list_ins` in front of it, and `list_del` of the first of the
two: the header still names the deleted item. -/
theorem not_listOps_refine_del :
    ¬ ∀ ops : List (ListOp Nat),
      Admissible ItemSeq.Names ItemSeq.step ItemSeq.init ops →
        ∃ list, run listStep listInit ops = .ok list ∧
          Represents list (runAbs ItemSeq.step ItemSeq.init ops) := by
  intro h
  obtain ⟨list, hrun, -⟩ := h [.put 7, .ins (some 0) 8, .del (some 0)] (by
    simp [Admissible, ItemSeq.Names, ItemSeq.step, ItemSeq.init, ItemSeq.grow,
      ItemSeq.growAt, ItemSeq.insertBefore, longMax])
  have hfault : run listStep listInit
      [.put (7 : Nat), .ins (some 0) 8, .del (some 0)] = .error (.freed 0) := rfl
  rw [hfault] at hrun
  cases hrun

end Torrentkino
