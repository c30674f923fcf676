import Torrentkino.Web.Http

/-!
# The range of a request

A request of HTTP/1.1 knows three forms of a range: from one byte to another, from one
byte to the end, and the last bytes of a file.  `http_range_simple` fills in a missing
first number with zero, so it reads the third form as the first one.

* `ByteRangeSpec` is a range of the protocol, `ByteRangeSpec.Text` its grammar, and
  `ByteRangeSpec.select` the bytes that it stands for.
* `httpRangeSimple_of_text` says what the function takes for each of them.

**Result.** `range_selected_iff`: when these are the bytes that it stands for.
-/

namespace Torrentkino

open CString Memory Decimal

/-- `1*DIGIT` -/
def Numeral (ds : Bytes) : Prop :=
  ds ≠ [] ∧ AllDigits ds

instance (ds : Bytes) : Decidable (Numeral ds) :=
  inferInstanceAs (Decidable (_ ∧ _))

/-- `byte-range-spec` and `suffix-byte-range-spec` -/
inductive ByteRangeSpec
  | fromTo (first last : Nat)
  | fromOn (first : Nat)
  | suffix (length : Nat)
deriving DecidableEq, Repr

namespace ByteRangeSpec

/-- The text of a range. -/
inductive Text : ByteRangeSpec → Bytes → Prop
  | fromTo {u v : Bytes} (hu : Numeral u) (hv : Numeral v) :
      Text (fromTo (decVal u) (decVal v)) (u ++ '-'.toUInt8 :: v)
  | fromOn {u : Bytes} (hu : Numeral u) :
      Text (fromOn (decVal u)) (u ++ ['-'.toUInt8])
  | suffix {v : Bytes} (hv : Numeral v) :
      Text (suffix (decVal v)) ('-'.toUInt8 :: v)

/-- The first and the last byte of the range in a file of the given size, unless the
range is invalid or unsatisfiable. -/
def select (filesize : Nat) : ByteRangeSpec → Option (Nat × Nat)
  | fromTo first last =>
      if first ≤ last ∧ first < filesize then some (first, min last (filesize - 1)) else none
  | fromOn first =>
      if first < filesize then some (first, filesize - 1) else none
  | suffix length =>
      if 1 ≤ length ∧ 1 ≤ filesize then some (filesize - min length filesize, filesize - 1)
      else none

/-- What `http_range_simple` takes for the range. -/
def taken (filesize : Nat) : ByteRangeSpec → Option (Nat × Nat)
  | suffix length => some (0, min length (filesize - 1))
  | spec => spec.select filesize

/-- The third form is taken for what it is when it asks for the whole file. -/
theorem taken_suffix_eq_select_iff
    {filesize length : Nat} (hpos : 1 ≤ filesize) :
    (suffix length).taken filesize = (suffix length).select filesize ↔ filesize ≤ length := by
  simp only [taken, select]
  constructor
  · intro h
    split at h
    · simp only [Option.some.injEq, Prod.mk.injEq] at h
      omega
    · cases h
  · intro h
    rw [if_pos ⟨by omega, hpos⟩, Nat.min_eq_right h, Nat.min_eq_right (by omega), Nat.sub_self]

end ByteRangeSpec

/-- `http_range_simple` finds the bytes that the range stands for, and the content length
grows by their number. -/
structure SelectsRange (filesize : Nat) (range : Bytes) (contentLength : Nat) : Prop where
  selected : ∀ spec : ByteRangeSpec, spec.Text range →
    httpRangeSimple filesize range contentLength =
      (spec.select filesize).map fun (a, b) => (a, b, contentLength + (b + 1 - a))
  malformed : (¬ ∃ spec : ByteRangeSpec, spec.Text range) →
    httpRangeSimple filesize range contentLength = none

/-! ## Numbers -/

theorem strIsNumber_iff {string : Bytes} : strIsNumber string = true ↔ AllDigits string := by
  simp [strIsNumber, AllDigits]

theorem minus_not_mem {u : Bytes} (hu : AllDigits u) : '-'.toUInt8 ∉ u := by
  intro h
  exact absurd (hu _ h) (by decide)

@[simp] theorem rangeNumber_nil (missing : Nat) : rangeNumber [] missing = some missing := rfl

/-- `atol` stops at the largest `long`. -/
theorem rangeNumber_numeral {u : Bytes} (hu : Numeral u) (missing : Nat) :
    rangeNumber u missing = some (min (2 ^ 63 - 1) (decVal u)) := by
  obtain ⟨hne, hdigits⟩ := hu
  rw [rangeNumber, if_neg hne, if_pos (strIsNumber_iff.mpr hdigits), strtol_digits hdigits hne]
  simp only [longMax, Option.some.injEq]
  omega

/-- An accepted end is missing or a number. -/
theorem numeral_of_rangeNumber
    {u : Bytes} {missing a : Nat} (h : rangeNumber u missing = some a) : u = [] ∨ Numeral u := by
  rw [rangeNumber] at h
  split at h
  · exact .inl ‹_›
  · split at h
    · exact .inr ⟨‹_›, strIsNumber_iff.mp ‹_›⟩
    · cases h

/-! ## Ranges -/

/-- The checks on the two numbers. -/
def clipRange (filesize a b : Nat) : Option (Nat × Nat) :=
  if a < filesize ∧ a ≤ b then some (a, min b (filesize - 1)) else none

/-- The conversion of the numbers does not matter, as no file is that large. -/
theorem clipRange_min {filesize : Nat} (hoff : filesize ≤ 2 ^ 63 - 1) (a b : Nat) :
    clipRange filesize (min (2 ^ 63 - 1) a) (min (2 ^ 63 - 1) b) = clipRange filesize a b := by
  simp only [clipRange]
  by_cases h : a < filesize ∧ a ≤ b
  · rw [if_pos (by omega), if_pos h, Option.some.injEq, Prod.mk.injEq]
    omega
  · rw [if_neg (by omega), if_neg h]

/-- The result of `http_range_simple` for a range. -/
def rangeResult (contentLength : Nat) (range : Option (Nat × Nat)) : Option (Nat × Nat × Nat) :=
  range.map fun (a, b) => (a, b, addSize contentLength (b + 1 - a))

theorem httpRangeSimple_of_numbers
    {filesize a b : Nat} {u v : Bytes}
    (hlen : (u ++ '-'.toUInt8 :: v).length ≤ bufOff1) (hminus : '-'.toUInt8 ∉ u)
    (hu : rangeNumber u 0 = some a) (hv : rangeNumber v (filesize - 1) = some b)
    (contentLength : Nat) :
    httpRangeSimple filesize (u ++ '-'.toUInt8 :: v) contentLength =
      rangeResult contentLength (clipRange filesize a b) := by
  have hcut : cutAt '-'.toUInt8 (u ++ '-'.toUInt8 :: v) = some (u, v) :=
    cutAt_eq_some.mpr ⟨rfl, hminus⟩
  rw [httpRangeSimple, List.take_of_length_le hlen, hcut]
  simp only [hu, hv, rangeResult, clipRange]
  rcases Nat.eq_zero_or_pos filesize with rfl | hpos
  · simp
  rw [if_neg (by omega)]
  have hstop : (if b ≥ filesize then filesize - 1 else b) = min b (filesize - 1) := by
    split <;> omega
  rw [hstop]
  by_cases ha : a < filesize
  · by_cases hab : a ≤ b
    · rw [if_neg (by omega), if_neg (by omega), if_pos ⟨ha, hab⟩, Option.map_some]
    · rw [if_neg (by omega), if_pos (by omega), if_neg (by omega), Option.map_none]
  · rw [if_pos (by omega), if_neg (by omega), Option.map_none]

/-- What the function takes for a range. -/
theorem httpRangeSimple_of_text
    {filesize contentLength : Nat} {range : Bytes} {spec : ByteRangeSpec}
    (hpos : 1 ≤ filesize) (hoff : filesize ≤ 2 ^ 63 - 1) (hlen : range.length ≤ bufOff1)
    (htext : spec.Text range) :
    httpRangeSimple filesize range contentLength =
      rangeResult contentLength (spec.taken filesize) := by
  cases htext with
  | @fromTo u v hu hv =>
      rw [httpRangeSimple_of_numbers hlen (minus_not_mem hu.2) (rangeNumber_numeral hu _)
        (rangeNumber_numeral hv _), clipRange_min hoff]
      simp only [clipRange, ByteRangeSpec.taken, ByteRangeSpec.select, and_comm]
  | @fromOn u hu =>
      have hstop : min (2 ^ 63 - 1) (filesize - 1) = filesize - 1 := by omega
      rw [httpRangeSimple_of_numbers hlen (minus_not_mem hu.2) (rangeNumber_numeral hu _)
        (rangeNumber_nil _)]
      have hclip := clipRange_min hoff (decVal u) (filesize - 1)
      rw [hstop] at hclip
      rw [hclip]
      have hiff : decVal u < filesize ∧ decVal u ≤ filesize - 1 ↔ decVal u < filesize := by omega
      simp only [clipRange, ByteRangeSpec.taken, ByteRangeSpec.select, hiff, Nat.min_self]
  | @suffix v hv =>
      have hresult := httpRangeSimple_of_numbers (u := []) hlen List.not_mem_nil
        (rangeNumber_nil 0) (rangeNumber_numeral hv (filesize - 1)) contentLength
      rw [List.nil_append] at hresult
      rw [hresult, clipRange, if_pos ⟨hpos, Nat.zero_le _⟩]
      have hstop : min (min (2 ^ 63 - 1) (decVal v)) (filesize - 1) =
          min (decVal v) (filesize - 1) := by omega
      rw [ByteRangeSpec.taken, hstop]

/-- The text without any number stands for the whole file. -/
theorem httpRangeSimple_minus {filesize : Nat} (hpos : 1 ≤ filesize) (contentLength : Nat) :
    httpRangeSimple filesize ['-'.toUInt8] contentLength =
      some (0, filesize - 1, addSize contentLength filesize) := by
  have hresult := httpRangeSimple_of_numbers (u := []) (v := []) (by decide) List.not_mem_nil
    (rangeNumber_nil 0) (rangeNumber_nil (filesize - 1)) contentLength
  rw [List.nil_append] at hresult
  rw [hresult, clipRange, if_pos ⟨hpos, Nat.zero_le _⟩, Nat.min_self]
  simp only [rangeResult, Option.map_some, Nat.sub_zero, Nat.sub_add_cancel hpos]

/-- What is accepted is a range, or it has no number at all. -/
theorem exists_text_of_httpRangeSimple
    {filesize contentLength : Nat} {range : Bytes} (hlen : range.length ≤ bufOff1)
    (h : httpRangeSimple filesize range contentLength ≠ none) :
    range = ['-'.toUInt8] ∨ ∃ spec : ByteRangeSpec, spec.Text range := by
  rw [httpRangeSimple, List.take_of_length_le hlen] at h
  split at h
  · exact absurd rfl h
  split at h
  · exact absurd rfl h
  rename_i u v hcut
  obtain ⟨rfl, -⟩ := cutAt_eq_some.mp hcut
  split at h
  · rename_i hu hv
    rcases numeral_of_rangeNumber hu with rfl | hu <;>
      rcases numeral_of_rangeNumber hv with rfl | hv
    · exact .inl rfl
    · exact .inr ⟨_, .suffix hv⟩
    · exact .inr ⟨_, .fromOn hu⟩
    · exact .inr ⟨_, .fromTo hu hv⟩
  · exact absurd rfl h

/-! ## The selected range -/

theorem not_text_minus : ¬ ∃ spec : ByteRangeSpec, spec.Text ['-'.toUInt8] := by
  rintro ⟨spec, htext⟩
  generalize hrange : ['-'.toUInt8] = range at htext
  cases htext with
  | @fromTo u v hu hv =>
      have hcut := congrArg List.length hrange
      simp only [List.length_append, List.length_cons, List.length_nil] at hcut
      exact hu.1 (List.eq_nil_of_length_eq_zero (by omega))
  | @fromOn u hu =>
      exact hu.1 (List.eq_nil_of_length_eq_zero (by simpa using congrArg List.length hrange))
  | @suffix v hv =>
      exact hv.1 (List.cons.inj hrange).2.symm

/-- The same result comes from the same range. -/
theorem rangeResult_eq
    {contentLength : Nat} {range range' : Option (Nat × Nat)}
    (h : rangeResult contentLength range =
      range'.map fun (a, b) => (a, b, contentLength + (b + 1 - a))) : range = range' := by
  cases range <;> cases range' <;> simp_all [rangeResult, Prod.ext_iff]

theorem lt_of_addSize_eq {a b : Nat} (h : addSize a b = a + b) : a + b < 2 ^ 64 :=
  h ▸ Nat.mod_lt _ (by decide)

/-- The function selects the range of the protocol exactly when the text has a number, a
suffix is not shorter than the file, and the content length does not overflow.

The size of a file is an `off_t`, and the text stands in an array of `BUF_SIZE` bytes. -/
theorem range_selected_iff
    {filesize : Nat} (hpos : 1 ≤ filesize) (hoff : filesize ≤ 2 ^ 63 - 1) {range : Bytes}
    (hlen : range.length ≤ bufOff1) (contentLength : Nat) :
    SelectsRange filesize range contentLength ↔
      range ≠ ['-'.toUInt8] ∧
      (∀ length, (ByteRangeSpec.suffix length).Text range → filesize ≤ length) ∧
      ∀ (spec : ByteRangeSpec) (a b : Nat), spec.Text range →
        spec.select filesize = some (a, b) → contentLength + (b + 1 - a) < 2 ^ 64 := by
  constructor
  · intro h
    refine ⟨?_, ?_, ?_⟩
    · rintro rfl
      have hnone := h.malformed not_text_minus
      rw [httpRangeSimple_minus hpos] at hnone
      cases hnone
    · intro length htext
      have hsome := h.selected _ htext
      rw [httpRangeSimple_of_text hpos hoff hlen htext] at hsome
      exact (ByteRangeSpec.taken_suffix_eq_select_iff hpos).mp (rangeResult_eq hsome)
    · intro spec a b htext hselect
      have hsome := h.selected _ htext
      rw [httpRangeSimple_of_text hpos hoff hlen htext] at hsome
      rw [rangeResult_eq hsome, hselect] at hsome
      simp only [rangeResult, Option.map_some, Option.some.injEq, Prod.mk.injEq, true_and] at hsome
      exact lt_of_addSize_eq hsome
  · rintro ⟨hminus, hsuffix, hlength⟩
    constructor
    · intro spec htext
      have htaken : spec.taken filesize = spec.select filesize := by
        cases spec with
        | suffix length => exact (ByteRangeSpec.taken_suffix_eq_select_iff hpos).mpr (hsuffix _ htext)
        | _ => rfl
      rw [httpRangeSimple_of_text hpos hoff hlen htext, htaken]
      cases hselect : spec.select filesize with
      | none => rfl
      | some p =>
          have hlt := hlength spec p.1 p.2 htext hselect
          simp only [rangeResult, Option.map_some, addSize, Nat.mod_eq_of_lt hlt]
    · intro hspec
      by_contra hsome
      exact (exists_text_of_httpRangeSimple hlen hsome).elim hminus hspec

theorem range_selected_iff_fromTo :
    SelectsRange 10 (cstr "2-15") 0 ↔
      cstr "2-15" ≠ ['-'.toUInt8] ∧
      (∀ length, (ByteRangeSpec.suffix length).Text (cstr "2-15") → 10 ≤ length) ∧
      ∀ (spec : ByteRangeSpec) (a b : Nat), spec.Text (cstr "2-15") →
        spec.select 10 = some (a, b) → 0 + (b + 1 - a) < 2 ^ 64 :=
  range_selected_iff (by decide) (by decide) (by decide +kernel) 0

/-- The last byte of a file of ten bytes: the first two come instead. -/
theorem range_selected_fails :
    ¬ ∀ (filesize : Nat) (range : Bytes) (contentLength : Nat), 1 ≤ filesize →
      filesize ≤ 2 ^ 63 - 1 → range.length ≤ bufOff1 →
        SelectsRange filesize range contentLength := by
  intro h
  have htext : (ByteRangeSpec.suffix 1).Text (cstr "-1") :=
    .suffix (v := cstr "1") (by decide +kernel)
  have hlast :=
    (h 10 (cstr "-1") 0 (by decide) (by decide) (by decide +kernel)).selected _ htext
  exact absurd hlast (by decide +kernel)

end Torrentkino
