import Torrentkino.Lib.Memory

/-!
# C strings

The `<string.h>` functions the program uses, on byte strings.  A `char *` is
given by the bytes from it to the end of its buffer; the string itself ends in
front of the first NUL byte.
-/

namespace Torrentkino
namespace CString

open Memory

/-- The string at the start of a buffer. -/
def cString : Bytes → Bytes
  | [] => []
  | c :: b => if c = 0 then [] else c :: cString b

/-- `strlen` -/
def strlen (b : Bytes) : Nat :=
  (cString b).length

/-- `strstr`: the offset of the first occurrence. -/
def strstr : Bytes → Bytes → Option Nat
  | [], needle => if needle.isPrefixOf [] then some 0 else none
  | c :: hay, needle =>
      if needle.isPrefixOf (c :: hay) then some 0
      else (strstr hay needle).map (· + 1)

/-- `strchr`, for a separator: what stands in front of its first occurrence
and what stands behind it. -/
def cutAt (c : UInt8) : Bytes → Option (Bytes × Bytes)
  | [] => none
  | d :: s => if d = c then some ([], s) else (cutAt c s).map fun (u, v) => (d :: u, v)

/-- The pieces that a loop over `strstr` visits: each ends in front of an
occurrence of the separator. -/
def pieces (sep : Bytes) : Nat → Bytes → List Bytes
  | 0, _ => []
  | fuel + 1, s =>
      match strstr s sep with
      | none => []
      | some i => s.take i :: pieces sep fuel (s.drop (i + sep.length))

/-- `tolower` in the C locale. -/
def toLower (c : UInt8) : UInt8 :=
  if 'A'.toUInt8 ≤ c ∧ c ≤ 'Z'.toUInt8 then c + 32 else c

/-- `strcasecmp`, as far as equality goes. -/
def eqIgnoreCase (s t : Bytes) : Bool :=
  s.map toLower = t.map toLower

/-- A store of `w` into a buffer at offset `i`. -/
def splice (b : Bytes) (i : Nat) (w : Bytes) : Bytes :=
  b.take i ++ w ++ b.drop (i + w.length)

@[simp] theorem cString_nil : cString [] = [] := rfl

@[simp] theorem cString_zero_cons (b : Bytes) : cString (0 :: b) = [] := by
  simp [cString]

theorem cString_cons_of_ne
    {c : UInt8} (b : Bytes) (hc : c ≠ 0) :
    cString (c :: b) = c :: cString b := by
  simp [cString, hc]

theorem cString_length_le (b : Bytes) : (cString b).length ≤ b.length := by
  induction b with
  | nil =>
      simp
  | cons c b ih =>
      rcases eq_or_ne c 0 with rfl | hc
      · simp
      · rw [cString_cons_of_ne b hc]
        simpa using ih

theorem cString_eq_self {w : Bytes} (hw : (0 : UInt8) ∉ w) : cString w = w := by
  induction w with
  | nil =>
      rfl
  | cons c w ih =>
      simp only [List.mem_cons, not_or] at hw
      rw [cString_cons_of_ne _ (Ne.symm hw.1), ih hw.2]

theorem cString_append_of_not_mem {b : Bytes} (hb : (0 : UInt8) ∉ b) (rest : Bytes) :
    cString (b ++ rest) = b ++ cString rest := by
  induction b with
  | nil =>
      rfl
  | cons c b ih =>
      simp only [List.mem_cons, not_or] at hb
      rw [List.cons_append, cString_cons_of_ne _ (Ne.symm hb.1), ih hb.2, List.cons_append]

theorem zero_not_mem_cString (b : Bytes) : (0 : UInt8) ∉ cString b := by
  induction b with
  | nil =>
      exact List.not_mem_nil
  | cons c b ih =>
      rcases eq_or_ne c 0 with rfl | hc
      · rw [cString_zero_cons]
        exact List.not_mem_nil
      · rw [cString_cons_of_ne b hc]
        exact List.not_mem_cons_of_ne_of_not_mem hc.symm ih

theorem take_strlen (b : Bytes) : b.take (strlen b) = cString b := by
  rw [strlen]
  induction b with
  | nil =>
      rfl
  | cons c b ih =>
      rcases eq_or_ne c 0 with rfl | hc
      · rw [cString_zero_cons]
        rfl
      · rw [cString_cons_of_ne b hc, List.length_cons, List.take_succ_cons, ih]

/-- The zero byte ends the string, and what follows does not count. -/
theorem cString_append_zero (b rest : Bytes) : cString (b ++ 0 :: rest) = cString b := by
  induction b with
  | nil =>
      simp
  | cons c b ih =>
      rcases eq_or_ne c 0 with rfl | hc
      · simp
      · rw [List.cons_append, cString_cons_of_ne _ hc, cString_cons_of_ne _ hc, ih]

/-- More bytes behind a buffer can only make its string longer. -/
theorem cString_append (b more : Bytes) :
    ∃ rest, cString (b ++ more) = cString b ++ rest := by
  induction b with
  | nil =>
      exact ⟨cString more, rfl⟩
  | cons c b ih =>
      rcases eq_or_ne c 0 with rfl | hc
      · exact ⟨[], by simp⟩
      · obtain ⟨rest, hrest⟩ := ih
        refine ⟨rest, ?_⟩
        rw [List.cons_append, cString_cons_of_ne _ hc, cString_cons_of_ne _ hc, hrest,
          List.cons_append]

/-- An occurrence lies inside the string. -/
theorem strstr_le
    {hay needle : Bytes} {i : Nat} (h : strstr hay needle = some i) :
    i + needle.length ≤ hay.length := by
  induction hay generalizing i with
  | nil =>
      by_cases hstart : needle.isPrefixOf []
      · rw [strstr, if_pos hstart] at h
        cases h
        simpa using (List.isPrefixOf_iff_prefix.mp hstart).length_le
      · rw [strstr, if_neg hstart] at h
        cases h
  | cons c hay ih =>
      by_cases hstart : needle.isPrefixOf (c :: hay)
      · rw [strstr, if_pos hstart] at h
        cases h
        simpa using (List.isPrefixOf_iff_prefix.mp hstart).length_le
      · rw [strstr, if_neg hstart] at h
        obtain ⟨j, hj, rfl⟩ := Option.map_eq_some_iff.mp h
        have := ih hj
        simp only [List.length_cons]
        omega

/-- At an occurrence there is the needle. -/
theorem prefix_drop_of_strstr
    {hay needle : Bytes} {i : Nat} (h : strstr hay needle = some i) :
    needle <+: hay.drop i := by
  induction hay generalizing i with
  | nil =>
      by_cases hstart : needle.isPrefixOf []
      · rw [strstr, if_pos hstart] at h
        cases h
        exact List.isPrefixOf_iff_prefix.mp hstart
      · rw [strstr, if_neg hstart] at h
        cases h
  | cons c hay ih =>
      by_cases hstart : needle.isPrefixOf (c :: hay)
      · rw [strstr, if_pos hstart] at h
        cases h
        exact List.isPrefixOf_iff_prefix.mp hstart
      · rw [strstr, if_neg hstart] at h
        obtain ⟨j, hj, rfl⟩ := Option.map_eq_some_iff.mp h
        exact ih hj

/-- What occurs is found. -/
theorem isSome_strstr {hay needle : Bytes} (h : needle <:+: hay) :
    (strstr hay needle).isSome = true := by
  induction hay with
  | nil =>
      have hnil : needle = [] := List.eq_nil_of_infix_nil h
      subst hnil
      rfl
  | cons c hay ih =>
      rw [strstr]
      by_cases hstart : needle.isPrefixOf (c :: hay)
      · rw [if_pos hstart]
        rfl
      · rw [if_neg hstart, Option.isSome_map]
        rcases List.infix_cons_iff.mp h with hhead | htail
        · exact absurd (List.isPrefixOf_iff_prefix.mpr hhead) hstart
        · exact ih htail

/-- The separator stands between the two parts, for the first time. -/
theorem cutAt_eq_some {c : UInt8} {s u v : Bytes} :
    cutAt c s = some (u, v) ↔ s = u ++ c :: v ∧ c ∉ u := by
  induction s generalizing u with
  | nil =>
      simp [cutAt]
  | cons d s ih =>
      rw [cutAt]
      by_cases hd : d = c
      · subst hd
        rw [if_pos rfl]
        constructor
        · intro h
          cases h
          exact ⟨rfl, List.not_mem_nil⟩
        · rintro ⟨hs, hu⟩
          cases u with
          | nil =>
              cases hs
              rfl
          | cons e u =>
              cases hs
              exact absurd List.mem_cons_self hu
      · rw [if_neg hd]
        constructor
        · intro h
          obtain ⟨⟨u', v'⟩, hcut, heq⟩ := Option.map_eq_some_iff.mp h
          cases heq
          obtain ⟨rfl, hu'⟩ := ih.mp hcut
          refine ⟨rfl, ?_⟩
          simp only [List.mem_cons, not_or]
          exact ⟨Ne.symm hd, hu'⟩
        · rintro ⟨hs, hu⟩
          cases u with
          | nil =>
              cases hs
              exact absurd rfl hd
          | cons e u =>
              cases hs
              simp only [List.mem_cons, not_or] at hu
              rw [ih.mpr ⟨rfl, hu.2⟩]
              rfl

theorem cutAt_eq_none {c : UInt8} {s : Bytes} : cutAt c s = none ↔ c ∉ s := by
  induction s with
  | nil =>
      simp [cutAt]
  | cons d s ih =>
      rw [cutAt, List.mem_cons, not_or]
      by_cases hd : d = c
      · simp [hd]
      · rw [if_neg hd, Option.map_eq_none_iff, ih]
        exact (and_iff_right (Ne.symm hd)).symm

/-- More text behind an occurrence does not change it. -/
theorem strstr_append
    {hay needle : Bytes} {i : Nat} (more : Bytes) (h : strstr hay needle = some i) :
    strstr (hay ++ more) needle = some i := by
  induction hay generalizing i with
  | nil =>
      by_cases hstart : needle.isPrefixOf []
      · rw [strstr, if_pos hstart] at h
        cases h
        have hnil : needle = [] := by simpa using hstart
        subst hnil
        cases more <;> rfl
      · rw [strstr, if_neg hstart] at h
        cases h
  | cons c hay ih =>
      rw [List.cons_append]
      by_cases hstart : needle.isPrefixOf (c :: hay)
      · rw [strstr, if_pos hstart] at h
        cases h
        have hstart' : needle.isPrefixOf (c :: (hay ++ more)) := by
          rw [List.isPrefixOf_iff_prefix] at hstart ⊢
          exact hstart.trans (List.prefix_append (c :: hay) more)
        rw [strstr, if_pos hstart']
      · rw [strstr, if_neg hstart] at h
        obtain ⟨j, hj, rfl⟩ := Option.map_eq_some_iff.mp h
        have hle := strstr_le hj
        -- An earlier occurrence would end inside `hay` as well.
        have hstart' : ¬ needle.isPrefixOf (c :: (hay ++ more)) := by
          intro hmore
          rw [List.isPrefixOf_iff_prefix] at hmore hstart
          refine hstart (List.prefix_of_prefix_length_le hmore
            (List.prefix_append (c :: hay) more) ?_)
          rw [List.length_cons]
          omega
        rw [strstr, if_neg hstart', ih hj]
        rfl

end CString
end Torrentkino
