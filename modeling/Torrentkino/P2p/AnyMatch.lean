import Torrentkino.P2p.NeighbourhoodInv

/-!
# A bucket with nodes

`bckt_find_any_match` is asked for a bucket to start a search from.  If the
bucket of the target is empty, it goes on to the first bucket of the list, and
never looks at those behind.

**Result.** `findsAny_iff`: it finds nodes whenever there are some, unless all of
them belong to buckets behind that of the target.
-/

namespace Torrentkino

open Memory Cuts Simulation

/-- The loop finds nothing if all buckets up to the position are empty. -/
theorem bcktFindBefore_eq_none_iff (l : List Buck) (i : Nat) :
    bcktFindBefore l i = none ↔ ∀ j ≤ i, hasNodes l j = false := by
  induction i with
  | zero =>
      rw [bcktFindBefore]
      cases hhas : hasNodes l 0 <;> simp [hhas]
  | succ i ih =>
      rw [bcktFindBefore]
      cases hhas : hasNodes l (i + 1) with
      | true =>
          simp only [if_true, reduceCtorEq, false_iff]
          intro h
          rw [h (i + 1) (Nat.le_refl _)] at hhas
          cases hhas
      | false =>
          rw [if_neg Bool.false_ne_true, ih]
          constructor
          · intro h j hj
            rcases Nat.lt_or_eq_of_le hj with hlt | rfl
            · exact h j (Nat.le_of_lt_succ hlt)
            · exact hhas
          · intro h j hj
            exact h j (Nat.le_succ_of_le hj)

/-- What the loop finds has nodes. -/
theorem hasNodes_of_bcktFindBefore
    {l : List Buck} {i j : Nat} (h : bcktFindBefore l i = some j) :
    hasNodes l j = true := by
  induction i with
  | zero =>
      rw [bcktFindBefore] at h
      split at h
      · cases h
        assumption
      · cases h
  | succ i ih =>
      rw [bcktFindBefore] at h
      split at h
      · cases h
        assumption
      · exact ih h

/-- The check in front of the loop is its first round. -/
theorem bcktFindAnyMatch_eq (l : List Buck) (id : NodeId) :
    bcktFindAnyMatch l id = bcktFindBefore l (bcktFindBestMatch l id) := by
  simp only [bcktFindAnyMatch]
  cases bcktFindBestMatch l id with
  | zero =>
      rw [bcktFindBefore]
      split <;> rfl
  | succ i =>
      rw [bcktFindBefore]
      split <;> rfl

variable {v : Build} {s : Nbhd v}

/-- A node with the identifier is in the table. -/
def KnownNode (s : Nbhd v) (id : NodeId) : Prop :=
  ∃ r ∈ allNodes s.bucket, ∃ n, s.heap.get r = some n ∧ n.id = id

/-- A bucket has nodes if it is the one some known node belongs to. -/
theorem NbhdInv.hasNodes_iff (h : NbhdInv s) (i : Nat) :
    hasNodes s.bucket i = true ↔
      ∃ id, KnownNode s id ∧ bcktFindBestMatch s.bucket id = i := by
  rw [hasNodes, Option.any_eq_true]
  constructor
  · rintro ⟨b, hb, hne⟩
    obtain ⟨r, hr⟩ := List.exists_mem_of_ne_nil _ (of_decide_eq_true hne)
    obtain ⟨hi, rfl⟩ := List.getElem?_eq_some_iff.mp hb
    obtain ⟨u, w, hsplit, hlen⟩ : ∃ u w, s.bucket = u ++ s.bucket[i] :: w ∧ u.length = i := by
      refine ⟨s.bucket.take i, s.bucket.drop (i + 1), ?_, ?_⟩
      · rw [← List.drop_eq_getElem_cons hi, List.take_append_drop]
      · rw [List.length_take, Nat.min_eq_left (Nat.le_of_lt hi)]
    have hpart := h.buckets
    have hplaced := h.buckets.placed
    rw [hsplit] at hpart hplaced
    obtain ⟨n, hn, hlow, hhigh⟩ := hplaced.at r hr
    refine ⟨n.id, ⟨r, List.mem_flatMap.mpr ⟨_, List.getElem_mem hi, hr⟩, n, hn, rfl⟩, ?_⟩
    rw [hsplit, hpart.bestMatch hlow hhigh, hlen]
  · rintro ⟨id, ⟨r, hr, n, hn, rfl⟩, rfl⟩
    obtain ⟨b, hb, hrb⟩ := List.mem_flatMap.mp hr
    obtain ⟨u, w, hsplit⟩ := List.append_of_mem hb
    have hpart := h.buckets
    have hplaced := h.buckets.placed
    rw [hsplit] at hpart hplaced ⊢
    obtain ⟨m, hm, hlow, hhigh⟩ := hplaced.at r hrb
    cases hm.symm.trans hn
    rw [hpart.bestMatch hlow hhigh]
    refine ⟨b, (getElem?_length u w b).1, ?_⟩
    exact decide_eq_true (List.ne_nil_of_mem hrb)

/-- `bckt_find_any_match` returns a null pointer exactly if no node is known, and
otherwise a bucket with nodes: nothing is started without nodes while there are
some. -/
def FindsAny (s : Nbhd v) (target : NodeId) : Prop :=
  (bcktFindAnyMatch s.bucket target = none ↔ ∀ id, ¬ KnownNode s id) ∧
    ((∃ id, KnownNode s id) →
      ∃ b, (bcktFindAnyMatch s.bucket target).bind (s.bucket[·]?) = some b ∧ b.nodes ≠ [])

theorem NbhdInv.bcktFindAnyMatch_eq_none_iff (h : NbhdInv s) (target : NodeId) :
    bcktFindAnyMatch s.bucket target = none ↔
      ∀ id, KnownNode s id →
        bcktFindBestMatch s.bucket target < bcktFindBestMatch s.bucket id := by
  rw [bcktFindAnyMatch_eq, bcktFindBefore_eq_none_iff]
  constructor
  · intro hempty id hknown
    by_contra hle
    have hhas := (h.hasNodes_iff _).mpr ⟨id, hknown, rfl⟩
    rw [hempty _ (Nat.not_lt.mp hle)] at hhas
    cases hhas
  · intro hbehind j hj
    rw [← Bool.not_eq_true, h.hasNodes_iff]
    rintro ⟨id, hknown, rfl⟩
    exact Nat.not_lt.mpr hj (hbehind id hknown)

theorem NbhdInv.findsAny (h : NbhdInv s) (target : NodeId) :
    FindsAny s target ↔ (∀ id, ¬ KnownNode s id) ∨
      ∃ id, KnownNode s id ∧
        bcktFindBestMatch s.bucket id ≤ bcktFindBestMatch s.bucket target := by
  have hnone := h.bcktFindAnyMatch_eq_none_iff target
  constructor
  · rintro ⟨hiff, -⟩
    by_contra hcond
    obtain ⟨hsome, hbehind⟩ := not_or.mp hcond
    refine hsome (hiff.mp (hnone.mpr ?_))
    intro id hknown
    exact Nat.not_le.mp fun hle => hbehind ⟨id, hknown, hle⟩
  · rintro (hempty | ⟨id, hknown, hle⟩)
    · refine ⟨iff_of_true (hnone.mpr ?_) hempty, ?_⟩
      · intro id hknown
        exact absurd hknown (hempty id)
      · rintro ⟨id, hknown⟩
        exact absurd hknown (hempty id)
    · have hfound : bcktFindAnyMatch s.bucket target ≠ none := by
        intro hnull
        exact Nat.not_lt.mpr hle (hnone.mp hnull id hknown)
      refine ⟨iff_of_false hfound fun hempty => hempty id hknown, fun _ => ?_⟩
      obtain ⟨i, hi⟩ := Option.ne_none_iff_exists'.mp hfound
      have hhas := hasNodes_of_bcktFindBefore ((bcktFindAnyMatch_eq _ _).symm.trans hi)
      rw [hasNodes, Option.any_eq_true] at hhas
      obtain ⟨b, hb, hne⟩ := hhas
      refine ⟨b, ?_, of_decide_eq_true hne⟩
      rw [hi]
      exact hb

/-- For every reachable table and every target: nodes are found whenever there
are some, unless they all belong to buckets behind that of the target. -/
theorem findsAny_iff (me : NodeId) (ops : List (NbhdOp v)) :
    ∃ s : Nbhd v, run (nbhdStep me) nbhdInit ops = .ok s ∧
      ∀ target, FindsAny s target ↔ (∀ id, ¬ KnownNode s id) ∨
        ∃ id, KnownNode s id ∧
          bcktFindBestMatch s.bucket id ≤ bcktFindBestMatch s.bucket target := by
  obtain ⟨s, hrun, hinv⟩ := run_invariant (nbhdStep_inv me) ops nbhdInit_inv
  exact ⟨s, hrun, hinv.findsAny⟩

/-- Nine nodes in the upper half of the identifiers, and a split for an own node
id in the lower half. -/
def upperHalf : List (NbhdOp .ipv4) :=
  (List.range 9).map (fun i =>
    .put ⟨0x80 :: UInt8.ofNat i :: List.replicate 18 0, by simp [sha1Size]⟩
      (.ofQuad 10 0 0 2 (26, 225))) ++ [.split .zero]

theorem upperHalf_buckets :
    (run (nbhdStep .zero) nbhdInit upperHalf).toOption.map (fun s =>
        (s.bucket.map (·.nodes.length), bcktFindAnyMatch s.bucket .zero)) =
      some ([0, 9], none) := by
  decide +kernel

/-- The bucket of the own node id is empty and the first of the list, and no
node is found. -/
theorem not_findsAny_upperHalf :
    ¬ ∀ (v : Build) (me : NodeId) (ops : List (NbhdOp v)) (s : Nbhd v),
      run (nbhdStep me) nbhdInit ops = .ok s → ∀ target, FindsAny s target := by
  intro hall
  obtain ⟨s, hrun, hinv⟩ := run_invariant (nbhdStep_inv .zero) upperHalf nbhdInit_inv
  have hbuckets := upperHalf_buckets
  rw [hrun] at hbuckets
  simp only [Except.toOption, Option.map_some, Option.some.injEq, Prod.mk.injEq] at hbuckets
  have hempty := (hall .ipv4 .zero upperHalf s hrun .zero).1.mp hbuckets.2
  have hnodes : allNodes s.bucket ≠ [] := by
    intro hnil
    have hsum := congrArg List.sum hbuckets.1
    rw [← List.length_flatMap, show s.bucket.flatMap Buck.nodes = [] from hnil] at hsum
    exact absurd hsum (by decide)
  obtain ⟨r, hr⟩ := List.exists_mem_of_ne_nil _ hnodes
  obtain ⟨n, hn⟩ := hinv.live hr
  exact hempty n.id ⟨r, hr, n, hn, rfl⟩

end Torrentkino
