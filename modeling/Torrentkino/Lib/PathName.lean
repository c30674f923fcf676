import Mathlib.Data.List.Basic
import Torrentkino.Lib.Memory

/-!
# Path names

A path name is cut at its slashes, and its components are followed one after the
other: an empty one and `.` stay where they are, `..` goes to the parent, and
every other one is a name.  A place is given by the names on the way to it, the
last one first.  So a place is below another one when the names of that one are
a suffix of its own.

`Tree` is a file system without links.  There a path name leads to the place that
its components give, if it leads anywhere.
-/

namespace Torrentkino
namespace PathName

open Memory

def slash : UInt8 := '/'.toUInt8

def dot : Bytes := ['.'.toUInt8]

def dotdot : Bytes := ['.'.toUInt8, '.'.toUInt8]

/-! ## Components -/

def components (path : Bytes) : List Bytes :=
  path.splitOn slash

/-- The component leads away from the place. -/
def moves (c : Bytes) : Bool :=
  c ≠ [] ∧ c ≠ dot

/-- The components that lead away. -/
def names (path : Bytes) : List Bytes :=
  (components path).filter moves

/-- One component. -/
def follow (dir : List Bytes) (c : Bytes) : List Bytes :=
  if c = [] ∨ c = dot then dir
  else if c = dotdot then dir.tail
  else c :: dir

/-- Where a path name starts: at the root, or at the working directory. -/
def start (cwd : List Bytes) (path : Bytes) : List Bytes :=
  if path.head? = some slash then [] else cwd

/-- The place that a path name gives, without a look at the files. -/
def normal (cwd : List Bytes) (path : Bytes) : List Bytes :=
  (components path).foldl follow (start cwd path)

theorem components_append_slash (p r : Bytes) :
    components (p ++ slash :: r) = components p ++ components r :=
  List.splitOn_append_cons_self p r

theorem components_of_not_mem {c : Bytes} (hc : slash ∉ c) : components c = [c] :=
  List.splitOn_eq_singleton hc

theorem components_ne_nil (path : Bytes) : components path ≠ [] :=
  List.splitOn_ne_nil slash path

theorem exists_components_eq (path : Bytes) : ∃ front c, components path = front ++ [c] := by
  rcases List.eq_nil_or_concat (components path) with hnil | ⟨front, c, h⟩
  · exact absurd hnil (components_ne_nil path)
  · exact ⟨front, c, by rw [h, List.concat_eq_append]⟩

@[simp] theorem follow_dotdot (dir : List Bytes) : follow dir dotdot = dir.tail := by
  rw [follow, if_neg (by decide), if_pos rfl]

theorem follow_of_moves {c : Bytes} (hc : moves c = true) (hdots : c ≠ dotdot) (dir : List Bytes) :
    follow dir c = c :: dir := by
  simp only [moves, decide_eq_true_eq] at hc
  rw [follow, if_neg (by simpa using hc), if_neg hdots]

theorem follow_of_not_moves {c : Bytes} (hc : ¬ moves c = true) (dir : List Bytes) :
    follow dir c = dir := by
  simp only [moves, decide_eq_true_eq] at hc
  exact if_pos (by tauto)

/-- Without `..` the names are put in front. -/
theorem foldl_follow {cs : List Bytes} (hcs : dotdot ∉ cs) (dir : List Bytes) :
    cs.foldl follow dir = (cs.filter moves).reverse ++ dir := by
  induction cs generalizing dir with
  | nil =>
      rfl
  | cons c cs ih =>
      simp only [List.mem_cons, not_or] at hcs
      rw [List.foldl_cons, ih hcs.2]
      by_cases hc : moves c = true
      · rw [follow_of_moves hc (Ne.symm hcs.1), List.filter_cons_of_pos hc, List.reverse_cons,
          List.append_assoc, List.singleton_append]
      · rw [follow_of_not_moves hc, List.filter_cons_of_neg hc]

/-- A component that starts a `..`, a `.` or nothing is one of these. -/
theorem eq_dotdot_of_start {c c' : Bytes} (hstart : c <+: c') (hc' : moves c' = true → c' = dotdot)
    (hc : moves c = true) : c = dotdot := by
  simp only [moves, decide_eq_true_eq] at hc hc'
  have hcases : c' = [] ∨ c' = dot ∨ c' = dotdot := by tauto
  rcases hcases with rfl | rfl | rfl
  · exact absurd (List.prefix_nil.mp hstart) hc.1
  · simp only [dot, List.prefix_cons_iff, List.prefix_nil] at hstart
    rcases hstart with rfl | ⟨_, rfl, rfl⟩
    · exact absurd rfl hc.1
    · exact absurd rfl hc.2
  · simp only [dotdot, List.prefix_cons_iff, List.prefix_nil] at hstart
    rcases hstart with rfl | ⟨_, rfl, rfl | ⟨_, rfl, rfl⟩⟩
    · exact absurd rfl hc.1
    · exact absurd rfl hc.2
    · rfl

/-- A file that is one step up from the end of the names lies below the directory when
there are names, unless it takes the place of the directory. -/
theorem suffix_climb_iff {dir ns : List Bytes} {c : Bytes}
    (hplace : c :: (ns.reverse ++ dir).tail ≠ dir) :
    dir <:+ c :: (ns.reverse ++ dir).tail ↔ ¬ (ns = [] ∧ dir ≠ []) := by
  rcases List.eq_nil_or_concat' ns with rfl | ⟨ns, n, rfl⟩
  · cases dir with
    | nil =>
        simp
    | cons d dir =>
        refine iff_of_false (fun hsuffix => hplace ?_) (by simp)
        exact (hsuffix.eq_of_length rfl).symm
  · refine iff_of_true ?_ fun hclimb => by simpa using congrArg List.length hclimb.1
    rw [List.reverse_append, List.reverse_singleton, List.singleton_append, List.cons_append,
      List.tail_cons]
    exact (List.suffix_append _ _).trans (List.suffix_cons _ _)

theorem normal_append_slash {p : Bytes} (hp : p ≠ []) (cwd : List Bytes) (r : Bytes) :
    normal cwd (p ++ slash :: r) = (components r).foldl follow (normal cwd p) := by
  have hstart : start cwd (p ++ slash :: r) = start cwd p := by
    obtain ⟨c, p, rfl⟩ := List.exists_cons_of_ne_nil hp
    rfl
  rw [normal, components_append_slash, List.foldl_append, hstart]
  rfl

/-! ## The slashes -/

/-- A component that is not the last one has a slash behind it. -/
theorem slash_behind
    {path c : Bytes} {front back : List Bytes} (hback : back ≠ [])
    (h : components path = front ++ c :: back) :
    c ++ [slash] <:+: path := by
  have hpath : path = [slash].intercalate (front ++ c :: back) := by
    rw [← h]
    exact (List.intercalate_splitOn slash).symm
  clear h
  induction front generalizing path with
  | nil =>
      rw [List.nil_append, List.intercalate_cons_of_ne_nil hback] at hpath
      exact ⟨[], [slash].intercalate back, by rw [hpath, List.nil_append]⟩
  | cons d front ih =>
      rw [List.cons_append, List.intercalate_cons_of_ne_nil (by simp)] at hpath
      rw [hpath]
      exact (ih rfl).trans (List.suffix_append _ _).isInfix

/-- The last component, and what is in front of it. -/
theorem exists_last (path : Bytes) :
    ∃ c, slash ∉ c ∧ (path = c ∨ ∃ front, path = front ++ slash :: c) := by
  by_cases h : slash ∈ path
  · obtain ⟨back, front, hpath, hback⟩ := List.eq_append_cons_of_mem (List.mem_reverse.mpr h)
    refine ⟨back.reverse, by simpa using hback, .inr ⟨front.reverse, ?_⟩⟩
    rw [← List.reverse_reverse path, hpath]
    simp
  · exact ⟨path, h, .inl rfl⟩

theorem components_append_of_not_mem {c : Bytes} (hc : slash ∉ c) (t : Bytes) :
    components (c ++ t) = (components t).modifyHead (c ++ ·) := by
  induction c with
  | nil =>
      cases h : components t with
      | nil =>
          exact absurd h (components_ne_nil t)
      | cons l ls =>
          rw [List.nil_append, h]
          rfl
  | cons d c ih =>
      simp only [List.mem_cons, not_or] at hc
      rw [components] at ih ⊢
      rw [List.cons_append, List.splitOn_cons_eq_if_modifyHead,
        if_neg (by simpa using Ne.symm hc.1), ih hc.2, List.modifyHead_modifyHead]
      rfl

/-- When a path is cut off, the start of a component is the last one. -/
theorem last_of_cut {p path : Bytes} (h : p <+: path) :
    ∃ front c c', components p = front ++ [c] ∧ c <+: c' ∧ c' ∈ components path := by
  obtain ⟨t, rfl⟩ := h
  obtain ⟨c, hc, hp⟩ := exists_last p
  have hhead : ∃ c', c <+: c' ∧ c' ∈ components (c ++ t) := by
    rw [components_append_of_not_mem hc]
    obtain ⟨l, ls, hls⟩ := List.exists_cons_of_ne_nil (components_ne_nil t)
    exact ⟨c ++ l, List.prefix_append c l, by simp [hls]⟩
  obtain ⟨c', hc', hmem⟩ := hhead
  rcases hp with rfl | ⟨front, rfl⟩
  · exact ⟨[], p, c', components_of_not_mem hc, hc', hmem⟩
  · refine ⟨components front, c, c', ?_, hc', ?_⟩
    · rw [components_append_slash, components_of_not_mem hc]
    · rw [List.append_assoc, List.cons_append, components_append_slash]
      exact List.mem_append_right _ hmem

/-! ## File systems -/

/-- Files and directories.  What has a name is in a directory. -/
structure Tree (α : Type) (isDir : α → Bool) where
  entry : List Bytes → Option α
  root : ∃ a, entry [] = some a ∧ isDir a = true
  parent : ∀ {c dir a}, entry (c :: dir) = some a → ∃ d, entry dir = some d ∧ isDir d = true

namespace Tree

variable {α : Type} {isDir : α → Bool} (t : Tree α isDir)

/-- The place is a directory. -/
def dirAt (dir : List Bytes) : Bool :=
  (t.entry dir).any isDir

/-- All components are followed, each of them in a directory. -/
def walk : List Bytes → List Bytes → Option (List Bytes)
  | dir, [] => some dir
  | dir, c :: cs => if t.dirAt dir then walk (follow dir c) cs else none

/-- The file that a path name leads to.  There is none for the empty one. -/
def lookup (cwd : List Bytes) (path : Bytes) : Option α :=
  if path = [] then none else (t.walk (start cwd path) (components path)).bind t.entry

variable {t}

theorem dirAt_of_entry {dir : List Bytes} {a : α} (h : t.entry dir = some a) :
    t.dirAt dir = isDir a := by
  rw [dirAt, h]
  rfl

theorem dirAt_tail {dir : List Bytes} (h : t.dirAt dir = true) : t.dirAt dir.tail = true := by
  cases dir with
  | nil =>
      exact h
  | cons c dir =>
      cases ha : t.entry (c :: dir) with
      | none =>
          rw [dirAt, ha] at h
          cases h
      | some a =>
          obtain ⟨d, hd, hdir⟩ := t.parent ha
          rw [List.tail_cons, dirAt_of_entry hd, hdir]

theorem walk_eq_some {cs : List Bytes} {dir dir' : List Bytes} (h : t.walk dir cs = some dir') :
    dir' = cs.foldl follow dir := by
  induction cs generalizing dir with
  | nil =>
      exact (Option.some.inj h).symm
  | cons c cs ih =>
      rw [walk] at h
      split at h
      · exact ih h
      · cases h

/-- In front of the last component there is a directory. -/
theorem walk_append_singleton
    {cs : List Bytes} {c : Bytes} {dir dir' : List Bytes}
    (h : t.walk dir (cs ++ [c]) = some dir') :
    ∃ d, t.dirAt d = true ∧ dir' = follow d c := by
  induction cs generalizing dir with
  | nil =>
      rw [List.nil_append, walk] at h
      split at h
      · exact ⟨dir, ‹_›, (Option.some.inj h).symm⟩
      · cases h
  | cons c' cs ih =>
      rw [List.cons_append, walk] at h
      split at h
      · exact ih h
      · cases h

variable {cwd : List Bytes} {path : Bytes} {a : α}

theorem lookup_eq_some (h : t.lookup cwd path = some a) :
    path ≠ [] ∧ ∃ dir, t.walk (start cwd path) (components path) = some dir ∧
      t.entry dir = some a := by
  rw [lookup] at h
  split at h
  · cases h
  · exact ⟨‹_›, Option.bind_eq_some_iff.mp h⟩

/-- A path name leads to the place that its components give. -/
theorem entry_normal (h : t.lookup cwd path = some a) : t.entry (normal cwd path) = some a := by
  obtain ⟨-, dir, hwalk, hentry⟩ := lookup_eq_some h
  rwa [walk_eq_some hwalk] at hentry

/-- A path name whose last component is not a name leads to a directory. -/
theorem isDir_of_last
    {front : List Bytes} {c : Bytes} (h : t.lookup cwd path = some a)
    (hpath : components path = front ++ [c]) (hc : moves c = true → c = dotdot) :
    isDir a = true := by
  obtain ⟨-, dir, hwalk, hentry⟩ := lookup_eq_some h
  rw [hpath] at hwalk
  obtain ⟨d, hd, rfl⟩ := walk_append_singleton hwalk
  rw [← dirAt_of_entry hentry]
  by_cases hmoves : moves c = true
  · rw [hc hmoves, follow_dotdot]
    exact dirAt_tail hd
  · rwa [follow_of_not_moves hmoves]

end Tree

end PathName
end Torrentkino
