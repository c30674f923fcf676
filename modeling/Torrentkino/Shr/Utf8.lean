import Torrentkino.Shr.Str

/-!
# The UTF-8 check

`str_isValidUTF8` compares `string[i]` with `0x80` to tell an ASCII byte.  Where `char` is
signed, every byte lies below that number, so the branches for the first bytes of longer
sequences are never reached.

* `Utf8.WellFormed` is the format of the comments in the source.
* `Utf8.acceptsUnsigned` are the same loops with the comparison on unsigned bytes.
  They recognise the format: `Utf8.acceptsUnsigned_iff`.
* `strIsValidUTF8_eq_true`: on amd64 every string is valid.

**Result.** `strIsValidUTF8_iff_wellFormed_iff`: for which strings the answer is right.
-/

namespace Torrentkino

open Memory

namespace Utf8

/-! ## The format -/

/-- `10bbbbbb` -/
def Continuation (c : UInt8) : Prop :=
  c &&& 0xC0 = 0x80

instance (c : UInt8) : Decidable (Continuation c) :=
  inferInstanceAs (Decidable (_ = _))

/-- The first byte of a sequence, with the number of the bytes behind it. -/
inductive Lead : Nat → UInt8 → Prop
  | ascii {c : UInt8} (h : c < 0x80) : Lead 0 c
  | two {c : UInt8} (h : c &&& 0xE0 = 0xC0) : Lead 1 c
  | three {c : UInt8} (h : c &&& 0xF0 = 0xE0) : Lead 2 c
  | four {c : UInt8} (h : c &&& 0xF8 = 0xF0) : Lead 3 c
  | five {c : UInt8} (h : c &&& 0xFC = 0xF8) : Lead 4 c
  | six {c : UInt8} (h : c &&& 0xFE = 0xFC) : Lead 5 c

/-- One character. -/
inductive Character : Bytes → Prop
  | mk {c : UInt8} {followers : Bytes}
      (hlead : Lead followers.length c)
      (hcont : ∀ d ∈ followers, Continuation d) :
      Character (c :: followers)

/-- A concatenation of characters. -/
inductive WellFormed : Bytes → Prop
  | nil : WellFormed []
  | append {q s : Bytes} (hq : Character q) (hs : WellFormed s) : WellFormed (q ++ s)

/-! ## The loops on unsigned bytes -/

/-- `utf8Followers` where `char` is unsigned. -/
def followersUnsigned (c : UInt8) : Option Nat :=
  if c < 0x80 then some 0
  else if c &&& 0xE0 = 0xC0 then some 1
  else if c &&& 0xF0 = 0xE0 then some 2
  else if c &&& 0xF8 = 0xF0 then some 3
  else if c &&& 0xFC = 0xF8 then some 4
  else if c &&& 0xFE = 0xFC then some 5
  else none

/-- `utf8Loop` where `char` is unsigned. -/
def acceptsUnsigned : Nat → Bytes → Bool
  | 0, [] => true
  | _ + 1, [] => false
  | 0, c :: s =>
      match followersUnsigned c with
      | none => false
      | some n => acceptsUnsigned n s
  | n + 1, c :: s => c &&& 0xC0 = 0x80 && acceptsUnsigned n s

/-- The patterns exclude each other. -/
theorem followersUnsigned_of_lead
    {n : Nat} {c : UInt8} (h : Lead n c) :
    followersUnsigned c = some n := by
  have two := forall_byte (P := fun c => c &&& 0xE0 = 0xC0 → followersUnsigned c = some 1)
    (by decide +kernel)
  have three := forall_byte (P := fun c => c &&& 0xF0 = 0xE0 → followersUnsigned c = some 2)
    (by decide +kernel)
  have four := forall_byte (P := fun c => c &&& 0xF8 = 0xF0 → followersUnsigned c = some 3)
    (by decide +kernel)
  have five := forall_byte (P := fun c => c &&& 0xFC = 0xF8 → followersUnsigned c = some 4)
    (by decide +kernel)
  have six := forall_byte (P := fun c => c &&& 0xFE = 0xFC → followersUnsigned c = some 5)
    (by decide +kernel)
  cases h with
  | ascii h => exact if_pos h
  | two h => exact two c h
  | three h => exact three c h
  | four h => exact four c h
  | five h => exact five c h
  | six h => exact six c h

theorem followersUnsigned_eq_some
    {n : Nat} {c : UInt8} :
    followersUnsigned c = some n ↔ Lead n c := by
  constructor
  · intro h
    unfold followersUnsigned at h
    split at h
    · cases h; exact .ascii ‹_›
    split at h
    · cases h; exact .two ‹_›
    split at h
    · cases h; exact .three ‹_›
    split at h
    · cases h; exact .four ‹_›
    split at h
    · cases h; exact .five ‹_›
    split at h
    · cases h; exact .six ‹_›
    · cases h
  · exact followersUnsigned_of_lead

/-- The loops take the bytes that the character still lacks, and then characters. -/
theorem acceptsUnsigned_iff_append
    {n : Nat} {s : Bytes} :
    acceptsUnsigned n s = true ↔
      ∃ followers rest, s = followers ++ rest ∧ followers.length = n ∧
        (∀ d ∈ followers, Continuation d) ∧ WellFormed rest := by
  induction s generalizing n with
  | nil =>
      cases n with
      | zero =>
          refine ⟨fun _ => ⟨[], [], rfl, rfl, by simp, .nil⟩, fun _ => rfl⟩
      | succ n =>
          refine ⟨fun h => (by simp [acceptsUnsigned] at h), ?_⟩
          rintro ⟨followers, rest, hs, hn, -, -⟩
          obtain ⟨rfl, -⟩ := List.append_eq_nil_iff.mp hs.symm
          cases hn
  | cons c s ih =>
      cases n with
      | zero =>
          constructor
          · intro h
            simp only [acceptsUnsigned] at h
            split at h
            · cases h
            · rename_i n hn
              obtain ⟨followers, rest, rfl, rfl, hcont, hrest⟩ := ih.mp h
              refine ⟨[], c :: (followers ++ rest), rfl, rfl, by simp, ?_⟩
              exact .append (.mk (followersUnsigned_eq_some.mp hn) hcont) hrest
          · rintro ⟨followers, rest, hs, hn, -, hrest⟩
            obtain rfl := List.eq_nil_of_length_eq_zero hn
            rw [List.nil_append] at hs
            cases hrest with
            | nil => cases hs
            | append hq hrest =>
                cases hq with
                | mk hlead hcont =>
                    rw [List.cons_append, List.cons.injEq] at hs
                    obtain ⟨rfl, hs⟩ := hs
                    simp only [acceptsUnsigned, followersUnsigned_of_lead hlead]
                    exact ih.mpr ⟨_, _, hs, rfl, hcont, hrest⟩
      | succ n =>
          simp only [acceptsUnsigned, Bool.and_eq_true, decide_eq_true_eq]
          rw [ih]
          constructor
          · rintro ⟨hc, followers, rest, rfl, rfl, hcont, hrest⟩
            exact ⟨c :: followers, rest, rfl, rfl, List.forall_mem_cons.mpr ⟨hc, hcont⟩, hrest⟩
          · rintro ⟨followers, rest, hs, hn, hcont, hrest⟩
            cases followers with
            | nil => cases hn
            | cons d followers =>
                rw [List.cons_append, List.cons.injEq] at hs
                obtain ⟨rfl, hs⟩ := hs
                obtain ⟨hd, hcont⟩ := List.forall_mem_cons.mp hcont
                exact ⟨hd, followers, rest, hs, Nat.succ.inj hn, hcont, hrest⟩

/-- On unsigned bytes the loops recognise the format. -/
theorem acceptsUnsigned_iff
    {s : Bytes} :
    acceptsUnsigned 0 s = true ↔ WellFormed s := by
  rw [acceptsUnsigned_iff_append]
  constructor
  · rintro ⟨followers, rest, rfl, hn, -, hrest⟩
    obtain rfl := List.eq_nil_of_length_eq_zero hn
    exact hrest
  · intro h
    exact ⟨[], s, rfl, rfl, by simp, h⟩

instance (s : Bytes) : Decidable (WellFormed s) :=
  decidable_of_iff _ acceptsUnsigned_iff

end Utf8

/-! ## The loops on signed bytes -/

/-- Every byte passes for an ASCII byte. -/
theorem utf8Followers_eq_zero
    (c : UInt8) :
    utf8Followers c = some 0 :=
  if_pos (by have := c.toInt8.toInt_lt; omega)

theorem utf8Loop_zero
    (s : Bytes) :
    utf8Loop 0 s = true := by
  induction s with
  | nil => rfl
  | cons c s ih =>
      simp only [utf8Loop, utf8Followers_eq_zero]
      exact ih

/-- Every string is valid. -/
theorem strIsValidUTF8_eq_true
    (s : Bytes) :
    strIsValidUTF8 s = true :=
  utf8Loop_zero _

/-! ## When the answer is right -/

/-- A continuation byte alone is valid. -/
theorem strIsValidUTF8_continuation :
    ¬(strIsValidUTF8 [0x80] = true ↔ Utf8.WellFormed [0x80]) := by
  decide +kernel

/-- The answer is right for the strings that the loops would take on unsigned bytes. -/
theorem strIsValidUTF8_iff_wellFormed_iff
    (s : Bytes) :
    (strIsValidUTF8 s = true ↔ Utf8.WellFormed s) ↔ Utf8.acceptsUnsigned 0 s = true := by
  rw [Utf8.acceptsUnsigned_iff]
  constructor
  · intro h
    exact h.mp (strIsValidUTF8_eq_true s)
  · intro h
    exact ⟨fun _ => h, fun _ => strIsValidUTF8_eq_true s⟩

end Torrentkino
