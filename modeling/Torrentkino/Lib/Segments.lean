import Mathlib.Data.List.Basic

/-!
# Cutting a stream into segments

A receiver appends what arrives to a buffer and takes complete segments off its
front.  It is described by one function that cuts the first segment off a
buffer, when it is complete.  What makes the segments independent of the way
the stream arrives is that more input behind a complete segment does not change
it; that is a field of `Segmenter`.

**Results.**
* `segments_append`: the segments of a buffer stay the first segments when more
  arrives, and the others are found in what was left.
* `segments_flatten`: a stream of complete segments is cut into these.
* `split_flatten`: the two together, for a buffer that holds the start of such
  a stream.
-/

namespace Torrentkino

/-- The first segment of a buffer and the rest. -/
structure Segmenter (α : Type) where
  cut : List α → Option (List α × List α)
  cut_eq : ∀ {b s r}, cut b = some (s, r) → b = s ++ r
  cut_ne_nil : ∀ {b s r}, cut b = some (s, r) → s ≠ []
  /-- Input behind a complete segment does not change it. -/
  cut_append : ∀ {b s r} (more : List α), cut b = some (s, r) →
    cut (b ++ more) = some (s, r ++ more)

namespace Segmenter

variable {α : Type} (S : Segmenter α)

theorem length_rest_lt {b s r : List α} (h : S.cut b = some (s, r)) : r.length < b.length := by
  rw [S.cut_eq h, List.length_append]
  have := List.length_pos_iff.mpr (S.cut_ne_nil h)
  omega

/-- All complete segments of a buffer, and what is left. -/
def segments (b : List α) : List (List α) × List α :=
  match _h : S.cut b with
  | none => ([], b)
  | some (s, r) =>
      let later := segments r
      (s :: later.1, later.2)
termination_by b.length
decreasing_by exact S.length_rest_lt _h

variable {S}

theorem segments_of_none {b : List α} (h : S.cut b = none) : S.segments b = ([], b) := by
  rw [segments]
  split
  · rfl
  · rename_i heq
    rw [h] at heq
    cases heq

theorem segments_of_some
    {b s r : List α} (h : S.cut b = some (s, r)) :
    S.segments b = (s :: (S.segments r).1, (S.segments r).2) := by
  rw [segments]
  split
  · rename_i heq
    rw [h] at heq
    cases heq
  · rename_i heq
    rw [h] at heq
    cases heq
    rfl

/-- Induction over the segments of a buffer. -/
theorem segments_induction
    {motive : List α → Prop}
    (none : ∀ b, S.cut b = none → motive b)
    (some : ∀ b s r, S.cut b = some (s, r) → motive r → motive b)
    (b : List α) :
    motive b := by
  induction hlen : b.length using Nat.strongRecOn generalizing b with
  | _ len ih =>
      cases hcut : S.cut b with
      | none =>
          exact none b hcut
      | some p =>
          obtain ⟨s, r⟩ := p
          exact some b s r hcut (ih r.length (hlen ▸ S.length_rest_lt hcut) r rfl)

/-- Nothing is lost. -/
theorem flatten_segments (b : List α) :
    (S.segments b).1.flatten ++ (S.segments b).2 = b := by
  induction b using S.segments_induction with
  | none b hcut =>
      simp [segments_of_none hcut]
  | some b s r hcut ih =>
      rw [segments_of_some hcut, List.flatten_cons, List.append_assoc, ih, S.cut_eq hcut]

/-- The rest has no complete segment. -/
theorem cut_rest (b : List α) : S.cut (S.segments b).2 = none := by
  induction b using S.segments_induction with
  | none b hcut =>
      rw [segments_of_none hcut]
      exact hcut
  | some b s r hcut ih =>
      rw [segments_of_some hcut]
      exact ih

/-- More input adds its segments behind those of the buffer. -/
theorem segments_append (b more : List α) :
    S.segments (b ++ more) =
      ((S.segments b).1 ++ (S.segments ((S.segments b).2 ++ more)).1,
        (S.segments ((S.segments b).2 ++ more)).2) := by
  induction b using S.segments_induction with
  | none b hcut =>
      simp [segments_of_none hcut]
  | some b s r hcut ih =>
      rw [segments_of_some (S.cut_append more hcut), ih, segments_of_some hcut]
      simp

variable (S) in
/-- The whole list is one segment. -/
def Complete (s : List α) : Prop :=
  S.cut s = some (s, [])

theorem Complete.cut_append {s : List α} (h : S.Complete s) (more : List α) :
    S.cut (s ++ more) = some (s, more) :=
  S.cut_append more h

/-- A stream of complete segments. -/
theorem segments_flatten
    {ss : List (List α)} (h : ∀ s ∈ ss, S.Complete s) :
    (S.segments ss.flatten).1 = ss := by
  induction ss with
  | nil =>
      cases hcut : S.cut [] with
      | none =>
          rw [List.flatten_nil, segments_of_none hcut]
      | some p =>
          exact absurd (S.length_rest_lt hcut) (Nat.not_lt_zero _)
  | cons s ss ih =>
      have hs := h s (List.mem_cons_self ..)
      rw [List.flatten_cons, segments_of_some (hs.cut_append _),
        ih fun s' hs' => h s' (List.mem_cons_of_mem s hs')]

/-- A buffer with the start of such a stream: its segments are the first ones
of the stream, and what is left starts the others. -/
theorem split_flatten
    {ss : List (List α)} {b more : List α} (h : ∀ s ∈ ss, S.Complete s)
    (heq : b ++ more = ss.flatten) :
    ∃ later, ss = (S.segments b).1 ++ later ∧ (S.segments b).2 ++ more = later.flatten := by
  have hss : (S.segments b).1 ++ (S.segments ((S.segments b).2 ++ more)).1 = ss := by
    have := segments_flatten h
    rwa [← heq, segments_append] at this
  refine ⟨_, hss.symm, ?_⟩
  refine (List.append_cancel_left_eq (S.segments b).1.flatten _ _).mp ?_
  rw [← List.append_assoc, flatten_segments, heq, ← List.flatten_append, hss]

end Segmenter
end Torrentkino
