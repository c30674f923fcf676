import Torrentkino.P2p.BenLiteral

/-!
# The grammar behind the validator and the decoder

A `BenDerivation` is a derivation tree of

* `V ::= 'd' (S V)* 'e' | 'l' V* 'e' | 'i' ['-'] D{1..10} 'e' | S`
* `S ::= D{1..4} ':' k bytes`

with the limits of the literals.  A derivation has a `yield`, the bytes it
derives, and a `toBen`, the object that these bytes denote.

The module proves that the validator is complete and, up to truncated scalars,
sound for this grammar, and that the decoder follows every derivation.  Inside
a list or a dictionary the next size check catches a truncated scalar; at top
level nothing does, and there the validator lets a buffer pass that makes the
decoder read behind its end.
-/

namespace Torrentkino

open Memory Decimal

/-- `V`: a derivation tree of the grammar. -/
inductive BenDerivation where
  | str (lit : StrLit)
  | int (lit : IntLit)
  | list (items : List BenDerivation)
  | dict (entries : List (StrLit × BenDerivation))

namespace BenDerivation

mutual

/-- The derived byte string. -/
def yield : BenDerivation → Bytes
  | str lit => lit.yield
  | int lit => lit.yield
  | list items => 'l'.toUInt8 :: (yieldItems items ++ ['e'.toUInt8])
  | dict entries => 'd'.toUInt8 :: (yieldEntries entries ++ ['e'.toUInt8])

/-- Bytes of the items of a list. -/
def yieldItems : List BenDerivation → Bytes
  | [] => []
  | v :: items => yield v ++ yieldItems items

/-- Bytes of the entries of a dictionary. -/
def yieldEntries : List (StrLit × BenDerivation) → Bytes
  | [] => []
  | (k, v) :: entries => k.yield ++ (yield v ++ yieldEntries entries)

end

mutual

/-- The object denoted by a derivation: entries in order, duplicates kept. -/
def toBen : BenDerivation → Ben
  | str lit => .str lit.payload
  | int lit => .int lit.value
  | list items => .list (toBenItems items)
  | dict entries => .dict (toBenEntries entries)

/-- Objects denoted by the items of a list. -/
def toBenItems : List BenDerivation → List Ben
  | [] => []
  | v :: items => toBen v :: toBenItems items

/-- Objects denoted by the entries of a dictionary. -/
def toBenEntries : List (StrLit × BenDerivation) → List (Bytes × Ben)
  | [] => []
  | (k, v) :: entries => (k.payload, toBen v) :: toBenEntries entries

end

theorem yield_length_pos (d : BenDerivation) : 0 < d.yield.length := by
  cases d <;> simp [yield, StrLit.yield, IntLit.yield]

end BenDerivation

/-! ## Completeness -/

/-- Validator and decoder follow every derivation that `fuel` can carry. -/
structure CompleteAt (raw : Raw) (fuel : Nat) : Prop where
  value : ∀ (d : BenDerivation) (p : Nat),
    Holds raw.code p d.yield → p + d.yield.length ≤ raw.size →
    d.yield.length ≤ fuel →
    benValidateR raw fuel p = some (p + d.yield.length) ∧
      benDecR raw fuel p = .ok (some d.toBen, p + d.yield.length)
  entries : ∀ (es : List (StrLit × BenDerivation)) (p : Nat) (acc : List (Bytes × Ben)),
    Holds raw.code p (BenDerivation.yieldEntries es ++ ['e'.toUInt8]) →
    p + (BenDerivation.yieldEntries es).length + 1 ≤ raw.size →
    (BenDerivation.yieldEntries es).length + 1 ≤ fuel →
    benValidateDLoop raw fuel p =
        some (p + (BenDerivation.yieldEntries es).length + 1) ∧
      benDecDLoop raw fuel p (.dict acc) =
        .ok (.dict (acc ++ BenDerivation.toBenEntries es),
          p + (BenDerivation.yieldEntries es).length + 1)
  items : ∀ (vs : List BenDerivation) (p : Nat) (acc : List Ben),
    Holds raw.code p (BenDerivation.yieldItems vs ++ ['e'.toUInt8]) →
    p + (BenDerivation.yieldItems vs).length + 1 ≤ raw.size →
    (BenDerivation.yieldItems vs).length + 1 ≤ fuel →
    benValidateLLoop raw fuel p =
        some (p + (BenDerivation.yieldItems vs).length + 1) ∧
      benDecLLoop raw fuel p (.list acc) =
        .ok (.list (acc ++ BenDerivation.toBenItems vs),
          p + (BenDerivation.yieldItems vs).length + 1)

section Completeness

variable {raw : Raw} {fuel : Nat}

theorem readByte_of_lt
    (raw : Raw) {p : Nat} (h : p < raw.size) : readByte raw p = .ok (raw.code p) :=
  if_pos h

/-- The first byte of a string is a digit. -/
theorem StrLit.first_isDigit
    (lit : StrLit) {p : Nat} (hhold : Holds raw.code p lit.yield) :
    isDigit (raw.code p) = true := by
  obtain ⟨len, payload, hds, hne, hshort, hcount, hsmall⟩ := lit
  obtain ⟨c, tl, rfl⟩ := List.exists_cons_of_ne_nil hne
  simp only [StrLit.yield, List.cons_append, holds_cons] at hhold
  rw [hhold.1]
  exact ((allDigits_cons c tl).mp hds).1

/-- No value starts with the byte that ends a container. -/
theorem BenDerivation.first_ne_end
    (d : BenDerivation) {p : Nat} (hhold : Holds raw.code p d.yield) :
    raw.code p ≠ 'e'.toUInt8 := by
  cases d with
  | str lit =>
      exact (isDigit_ne (lit.first_isDigit hhold)).2.1
  | int lit =>
      simp only [yield, IntLit.yield, holds_cons] at hhold
      rw [hhold.1]
      decide
  | list items =>
      simp only [yield, holds_cons] at hhold
      rw [hhold.1]
      decide
  | dict entries =>
      simp only [yield, holds_cons] at hhold
      rw [hhold.1]
      decide

/-- A value, given that its parts are followed with one unit of fuel less. -/
theorem CompleteAt.value_succ
    (ih : CompleteAt raw fuel) (d : BenDerivation) (p : Nat)
    (hhold : Holds raw.code p d.yield) (hfit : p + d.yield.length ≤ raw.size)
    (hfuel : d.yield.length ≤ fuel + 1) :
    benValidateR raw (fuel + 1) p = some (p + d.yield.length) ∧
      benDecR raw (fuel + 1) p = .ok (some d.toBen, p + d.yield.length) := by
  have hpos := d.yield_length_pos
  have hsize : ¬ raw.size < 1 := by omega
  have hp : ¬ p ≥ raw.size := by omega
  have hread := readByte_of_lt raw (p := p) (by omega)
  cases d with
  | str lit =>
      obtain ⟨hval, hdec⟩ := benStr_complete lit hhold hfit
      have hdigit := lit.first_isDigit hhold
      obtain ⟨-, -, hd, hl, hi, -⟩ := isDigit_ne hdigit
      constructor
      · simp only [benValidateR, hsize, hp, hd, hl, hi, hdigit, if_false, if_true,
          hval, BenDerivation.yield]
      · simp only [benDecR, hread, bind, Except.bind, hd, hl, hi, hdigit, if_false,
          if_true, hdec, pure, Except.pure, BenDerivation.yield, BenDerivation.toBen]
  | int lit =>
      obtain ⟨hval, hdec⟩ := benInt_complete lit hhold hfit
      have hfirst : raw.code p = 'i'.toUInt8 := hhold.1
      have hd : 'i'.toUInt8 ≠ 'd'.toUInt8 := by decide
      have hl : 'i'.toUInt8 ≠ 'l'.toUInt8 := by decide
      constructor
      · simp only [benValidateR, hsize, hp, hfirst, hd, hl, if_false, if_true, hval,
          BenDerivation.yield]
      · simp only [benDecR, hread, bind, Except.bind, hfirst, hd, hl, if_false,
          if_true, hdec, pure, Except.pure, BenDerivation.yield, BenDerivation.toBen]
  | list items =>
      simp only [BenDerivation.yield, holds_cons, List.length_cons,
        List.length_append, List.length_nil] at hhold hfit hfuel ⊢
      obtain ⟨hfirst, hrest⟩ := hhold
      obtain ⟨hval, hdec⟩ := ih.items items (p + 1) [] hrest (by omega) (by omega)
      have hd : 'l'.toUInt8 ≠ 'd'.toUInt8 := by decide
      have hp₁ : ¬ p + 1 ≥ raw.size := by omega
      have hcursor : p + 1 + (BenDerivation.yieldItems items).length + 1 =
          p + ((BenDerivation.yieldItems items).length + (0 + 1) + 1) := by omega
      constructor
      · simp only [benValidateR, hsize, hp, hfirst, hd, hp₁, if_false, if_true, hval,
          hcursor]
      · simp only [benDecR, hread, bind, Except.bind, hfirst, hd, if_false,
          if_true, hdec, pure, Except.pure, hcursor, List.nil_append,
          BenDerivation.toBen]
  | dict entries =>
      simp only [BenDerivation.yield, holds_cons, List.length_cons,
        List.length_append, List.length_nil] at hhold hfit hfuel ⊢
      obtain ⟨hfirst, hrest⟩ := hhold
      obtain ⟨hval, hdec⟩ := ih.entries entries (p + 1) [] hrest (by omega) (by omega)
      have hp₁ : ¬ p + 1 ≥ raw.size := by omega
      have hcursor : p + 1 + (BenDerivation.yieldEntries entries).length + 1 =
          p + ((BenDerivation.yieldEntries entries).length + (0 + 1) + 1) := by omega
      constructor
      · simp only [benValidateR, hsize, hp, hfirst, hp₁, if_false, if_true, hval,
          hcursor]
      · simp only [benDecR, hread, bind, Except.bind, hfirst, if_true, hdec, pure,
          Except.pure, hcursor, List.nil_append, BenDerivation.toBen]

/-- The entries of a dictionary, given that values and shorter entry lists are
followed with one unit of fuel less. -/
theorem CompleteAt.entries_succ
    (ih : CompleteAt raw fuel) (es : List (StrLit × BenDerivation)) (p : Nat)
    (acc : List (Bytes × Ben))
    (hhold : Holds raw.code p (BenDerivation.yieldEntries es ++ ['e'.toUInt8]))
    (hfit : p + (BenDerivation.yieldEntries es).length + 1 ≤ raw.size)
    (hfuel : (BenDerivation.yieldEntries es).length + 1 ≤ fuel + 1) :
    benValidateDLoop raw (fuel + 1) p =
        some (p + (BenDerivation.yieldEntries es).length + 1) ∧
      benDecDLoop raw (fuel + 1) p (.dict acc) =
        .ok (.dict (acc ++ BenDerivation.toBenEntries es),
          p + (BenDerivation.yieldEntries es).length + 1) := by
  have hread := readByte_of_lt raw (p := p) (by omega)
  cases es with
  | nil =>
      have hfirst : raw.code p = 'e'.toUInt8 := hhold.1
      have hend : ¬ p + 1 > raw.size := by
        simp only [BenDerivation.yieldEntries, List.length_nil] at hfit
        omega
      constructor
      · simp [benValidateDLoop, hfirst, hend, BenDerivation.yieldEntries]
      · simp [benDecDLoop, hread, bind, Except.bind, hfirst, pure, Except.pure,
          BenDerivation.yieldEntries, BenDerivation.toBenEntries]
  | cons e es =>
      obtain ⟨k, v⟩ := e
      simp only [BenDerivation.yieldEntries, List.append_assoc, List.length_append]
        at hhold hfit hfuel ⊢
      rw [holds_append, holds_append] at hhold
      obtain ⟨hkey, hvalue, hrest⟩ := hhold
      have hk : 0 < k.yield.length := by simp [StrLit.yield]
      obtain ⟨hvalS, hdecS⟩ := benStr_complete k hkey (by omega)
      obtain ⟨hvalV, hdecV⟩ := ih.value v _ hvalue (by omega) (by omega)
      obtain ⟨hvalL, hdecL⟩ :=
        ih.entries es _ (acc ++ [(k.payload, v.toBen)]) hrest (by omega) (by omega)
      have hfirst : raw.code p ≠ 'e'.toUInt8 :=
        (isDigit_ne (k.first_isDigit hkey)).2.1
      have hin : ¬ p + k.yield.length + v.yield.length ≥ raw.size := by omega
      have hcursor : p + k.yield.length + v.yield.length +
          (BenDerivation.yieldEntries es).length + 1 =
          p + (k.yield.length + (v.yield.length +
            (BenDerivation.yieldEntries es).length)) + 1 := by omega
      constructor
      · simp only [benValidateDLoop, hfirst, ne_eq, not_false_eq_true, if_true, hvalS,
          hvalV, hin, if_false, hvalL, hcursor]
      · simp only [benDecDLoop, hread, bind, Except.bind, hfirst, ne_eq,
          not_false_eq_true, if_true, hdecS, hdecV, benDict, Except.mapError, hdecL,
          hcursor, BenDerivation.toBenEntries, List.append_assoc, List.cons_append,
          List.nil_append]

/-- The items of a list, given that values and shorter item lists are followed
with one unit of fuel less. -/
theorem CompleteAt.items_succ
    (ih : CompleteAt raw fuel) (vs : List BenDerivation) (p : Nat) (acc : List Ben)
    (hhold : Holds raw.code p (BenDerivation.yieldItems vs ++ ['e'.toUInt8]))
    (hfit : p + (BenDerivation.yieldItems vs).length + 1 ≤ raw.size)
    (hfuel : (BenDerivation.yieldItems vs).length + 1 ≤ fuel + 1) :
    benValidateLLoop raw (fuel + 1) p =
        some (p + (BenDerivation.yieldItems vs).length + 1) ∧
      benDecLLoop raw (fuel + 1) p (.list acc) =
        .ok (.list (acc ++ BenDerivation.toBenItems vs),
          p + (BenDerivation.yieldItems vs).length + 1) := by
  have hread := readByte_of_lt raw (p := p) (by omega)
  cases vs with
  | nil =>
      have hfirst : raw.code p = 'e'.toUInt8 := hhold.1
      have hend : ¬ p + 1 > raw.size := by
        simp only [BenDerivation.yieldItems, List.length_nil] at hfit
        omega
      constructor
      · simp [benValidateLLoop, hfirst, hend, BenDerivation.yieldItems]
      · simp [benDecLLoop, hread, bind, Except.bind, hfirst, pure, Except.pure,
          BenDerivation.yieldItems, BenDerivation.toBenItems]
  | cons v vs =>
      simp only [BenDerivation.yieldItems, List.append_assoc, List.length_append]
        at hhold hfit hfuel ⊢
      rw [holds_append] at hhold
      obtain ⟨hvalue, hrest⟩ := hhold
      have hv := v.yield_length_pos
      obtain ⟨hvalV, hdecV⟩ := ih.value v _ hvalue (by omega) (by omega)
      obtain ⟨hvalL, hdecL⟩ :=
        ih.items vs _ (acc ++ [v.toBen]) hrest (by omega) (by omega)
      have hfirst := v.first_ne_end hvalue
      have hin : ¬ p + v.yield.length ≥ raw.size := by omega
      have hcursor : p + v.yield.length + (BenDerivation.yieldItems vs).length + 1 =
          p + (v.yield.length + (BenDerivation.yieldItems vs).length) + 1 := by omega
      constructor
      · simp only [benValidateLLoop, hfirst, ne_eq, not_false_eq_true, if_true, hvalV,
          hin, if_false, hvalL, hcursor]
      · simp only [benDecLLoop, hread, bind, Except.bind, hfirst, ne_eq,
          not_false_eq_true, if_true, hdecV, benList, Except.mapError, hdecL,
          hcursor, BenDerivation.toBenItems, List.append_assoc, List.cons_append,
          List.nil_append]

/-- Validator and decoder follow every derivation. -/
theorem completeAt (raw : Raw) (fuel : Nat) : CompleteAt raw fuel := by
  induction fuel with
  | zero =>
      refine ⟨?_, ?_, ?_⟩
      · intro d p _ _ hfuel
        have := d.yield_length_pos
        omega
      · intro es p acc _ _ hfuel
        omega
      · intro vs p acc _ _ hfuel
        omega
  | succ fuel ih =>
      exact ⟨ih.value_succ, ih.entries_succ, ih.items_succ⟩

end Completeness

/-! ## Soundness -/

/-- The digits of a top-level string length or integer run up to the end of
the buffer. -/
def TruncatedAt (raw : Raw) (p : Nat) : Prop :=
  ∃ pre ds, (pre = [] ∨ pre = ['i'.toUInt8] ∨ pre = ['i'.toUInt8, '-'.toUInt8]) ∧
    AllDigits ds ∧ ds ≠ [] ∧ Holds raw.code p (pre ++ ds) ∧
    p + (pre ++ ds).length = raw.size

/-- What the validator accepts with a given amount of fuel. -/
structure SoundAt (raw : Raw) (fuel : Nat) : Prop where
  value : ∀ p q, benValidateR raw fuel p = some q →
    q ≤ raw.size ∧
      ((∃ d : BenDerivation, Holds raw.code p d.yield ∧ q = p + d.yield.length) ∨
        (TruncatedAt raw p ∧ q = raw.size))
  entries : ∀ p q, p < raw.size → benValidateDLoop raw fuel p = some q →
    q ≤ raw.size ∧ ∃ es : List (StrLit × BenDerivation),
      Holds raw.code p (BenDerivation.yieldEntries es ++ ['e'.toUInt8]) ∧
        q = p + (BenDerivation.yieldEntries es).length + 1
  items : ∀ p q, p < raw.size → benValidateLLoop raw fuel p = some q →
    q ≤ raw.size ∧ ∃ vs : List BenDerivation,
      Holds raw.code p (BenDerivation.yieldItems vs ++ ['e'.toUInt8]) ∧
        q = p + (BenDerivation.yieldItems vs).length + 1

section Soundness

variable {raw : Raw} {fuel : Nat}

/-- Nothing is accepted behind the buffer. -/
theorem benValidateR_lt
    {p q : Nat} (h : benValidateR raw fuel p = some q) : p < raw.size := by
  cases fuel with
  | zero =>
      simp [benValidateR] at h
  | succ fuel =>
      by_contra hp
      have hge : p ≥ raw.size := Nat.le_of_not_lt hp
      by_cases hsize : raw.size < 1
      · simp [benValidateR, hsize] at h
      · simp [benValidateR, hsize, hge] at h

theorem SoundAt.value_succ
    (ih : SoundAt raw fuel) (p q : Nat)
    (h : benValidateR raw (fuel + 1) p = some q) :
    q ≤ raw.size ∧
      ((∃ d : BenDerivation, Holds raw.code p d.yield ∧ q = p + d.yield.length) ∨
        (TruncatedAt raw p ∧ q = raw.size)) := by
  have hp := benValidateR_lt h
  have hsize : ¬ raw.size < 1 := by omega
  have hp' : ¬ p ≥ raw.size := by omega
  simp only [benValidateR, hsize, hp', if_false] at h
  by_cases hd : raw.code p = 'd'.toUInt8
  · by_cases hp₁ : p + 1 ≥ raw.size
    · simp [hd, hp₁] at h
    · simp only [hd, hp₁, if_true, if_false] at h
      obtain ⟨hq, es, hhold, rfl⟩ := ih.entries (p + 1) q (by omega) h
      refine ⟨hq, Or.inl ⟨.dict es, ⟨hd, hhold⟩, ?_⟩⟩
      simp [BenDerivation.yield]
      omega
  rw [if_neg hd] at h
  by_cases hl : raw.code p = 'l'.toUInt8
  · by_cases hp₁ : p + 1 ≥ raw.size
    · simp [hl, hp₁] at h
    · simp only [hl, hp₁, if_true, if_false] at h
      obtain ⟨hq, vs, hhold, rfl⟩ := ih.items (p + 1) q (by omega) h
      refine ⟨hq, Or.inl ⟨.list vs, ⟨hl, hhold⟩, ?_⟩⟩
      simp [BenDerivation.yield]
      omega
  rw [if_neg hl] at h
  by_cases hi : raw.code p = 'i'.toUInt8
  · rw [if_pos hi] at h
    obtain ⟨hq, ⟨lit, hhold, rfl⟩ | ⟨pre, ds, hpre, hds, hne, hhold, hend, hqs⟩⟩ :=
      benValidateI_sound hi h
    · exact ⟨hq, Or.inl ⟨.int lit, hhold, rfl⟩⟩
    · exact ⟨hq, Or.inr ⟨⟨pre, ds, Or.inr hpre, hds, hne, hhold, hend⟩, hqs⟩⟩
  rw [if_neg hi] at h
  by_cases hdigit : isDigit (raw.code p) = true
  · rw [if_pos hdigit] at h
    rcases benValidateS_sound h with
      ⟨lit, hhold, rfl, hq⟩ | ⟨ds, hds, hne, hhold, hend, rfl⟩
    · exact ⟨hq, Or.inl ⟨.str lit, hhold, rfl⟩⟩
    · exact ⟨le_rfl, Or.inr ⟨⟨[], ds, Or.inl rfl, hds, hne, hhold, hend⟩, rfl⟩⟩
  · rw [if_neg hdigit] at h
    cases h

theorem SoundAt.entries_succ
    (ih : SoundAt raw fuel) (p q : Nat) (hp : p < raw.size)
    (h : benValidateDLoop raw (fuel + 1) p = some q) :
    q ≤ raw.size ∧ ∃ es : List (StrLit × BenDerivation),
      Holds raw.code p (BenDerivation.yieldEntries es ++ ['e'.toUInt8]) ∧
        q = p + (BenDerivation.yieldEntries es).length + 1 := by
  rw [benValidateDLoop] at h
  by_cases he : raw.code p = 'e'.toUInt8
  · have hend : ¬ p + 1 > raw.size := by omega
    simp only [he, ne_eq, not_true_eq_false, if_false, hend, Option.some.injEq] at h
    exact ⟨by omega, [], by simpa [BenDerivation.yieldEntries] using he,
      by simp [BenDerivation.yieldEntries, h]⟩
  · rw [if_pos he] at h
    cases hS : benValidateS raw p with
    | none =>
        simp [hS] at h
    | some p₁ =>
        cases hR : benValidateR raw fuel p₁ with
        | none =>
            simp [hS, hR] at h
        | some p₂ =>
            by_cases hin : p₂ ≥ raw.size
            · simp [hS, hR, hin] at h
            · simp only [hS, hR, hin, if_false] at h
              -- a truncated key or value would have used up the buffer
              obtain ⟨lit, hkey, rfl, -⟩ | ⟨ds, -, -, -, -, rfl⟩ :=
                benValidateS_sound hS
              · obtain ⟨-, ⟨d, hvalue, rfl⟩ | ⟨-, rfl⟩⟩ := ih.value _ _ hR
                · obtain ⟨hq, es, hrest, rfl⟩ := ih.entries _ q (by omega) h
                  refine ⟨hq, (lit, d) :: es, ?_, ?_⟩
                  · simp only [BenDerivation.yieldEntries, List.append_assoc]
                    rw [holds_append, holds_append]
                    exact ⟨hkey, hvalue, hrest⟩
                  · simp only [BenDerivation.yieldEntries, List.length_append]
                    omega
                · omega
              · have := benValidateR_lt hR
                omega

theorem SoundAt.items_succ
    (ih : SoundAt raw fuel) (p q : Nat) (hp : p < raw.size)
    (h : benValidateLLoop raw (fuel + 1) p = some q) :
    q ≤ raw.size ∧ ∃ vs : List BenDerivation,
      Holds raw.code p (BenDerivation.yieldItems vs ++ ['e'.toUInt8]) ∧
        q = p + (BenDerivation.yieldItems vs).length + 1 := by
  rw [benValidateLLoop] at h
  by_cases he : raw.code p = 'e'.toUInt8
  · have hend : ¬ p + 1 > raw.size := by omega
    simp only [he, ne_eq, not_true_eq_false, if_false, hend, Option.some.injEq] at h
    exact ⟨by omega, [], by simpa [BenDerivation.yieldItems] using he,
      by simp [BenDerivation.yieldItems, h]⟩
  · rw [if_pos he] at h
    cases hR : benValidateR raw fuel p with
    | none =>
        simp [hR] at h
    | some p₁ =>
        by_cases hin : p₁ ≥ raw.size
        · simp [hR, hin] at h
        · simp only [hR, hin, if_false] at h
          obtain ⟨-, ⟨d, hvalue, rfl⟩ | ⟨-, rfl⟩⟩ := ih.value _ _ hR
          · obtain ⟨hq, vs, hrest, rfl⟩ := ih.items _ q (by omega) h
            refine ⟨hq, d :: vs, ?_, ?_⟩
            · simp only [BenDerivation.yieldItems, List.append_assoc]
              rw [holds_append]
              exact ⟨hvalue, hrest⟩
            · simp only [BenDerivation.yieldItems, List.length_append]
              omega
          · omega

/-- The validator accepts derivations of the grammar and truncated scalars. -/
theorem soundAt (raw : Raw) (fuel : Nat) : SoundAt raw fuel := by
  induction fuel with
  | zero =>
      refine ⟨?_, ?_, ?_⟩
      · intro p q h
        simp [benValidateR] at h
      · intro p q _ h
        simp [benValidateDLoop] at h
      · intro p q _ h
        simp [benValidateLLoop] at h
  | succ fuel ih =>
      exact ⟨ih.value_succ, ih.entries_succ, ih.items_succ⟩

/-- A truncated scalar is accepted, and the decoder runs off the buffer. -/
theorem truncated_spec
    {p : Nat} (h : TruncatedAt raw p) (fuel : Nat) :
    benValidateR raw (fuel + 1) p = some raw.size ∧
      benDecR raw (fuel + 1) p = .error .overread := by
  obtain ⟨pre, ds, hpre, hds, hne, hhold, hend⟩ := h
  obtain ⟨c, tl, htl⟩ := List.exists_cons_of_ne_nil hne
  have hc : isDigit c = true := by
    rw [htl] at hds
    exact ((allDigits_cons c tl).mp hds).1
  have hpos : 0 < ds.length := List.length_pos_iff.mpr hne
  rw [holds_append] at hhold
  rw [List.length_append] at hend
  have hsize : ¬ raw.size < 1 := by omega
  have hp : ¬ p ≥ raw.size := by omega
  have hread := readByte_of_lt raw (p := p) (by omega)
  rcases hpre with rfl | rfl | rfl
  · -- a string length
    simp only [List.length_nil, Nat.add_zero, Nat.zero_add] at hhold hend
    obtain ⟨hval, hdec⟩ := benStr_truncated hds hne hhold.2 hend
    have hdigit : isDigit (raw.code p) = true := by
      rw [htl] at hhold
      rw [hhold.2.1]
      exact hc
    obtain ⟨-, -, hd, hl, hi, -⟩ := isDigit_ne hdigit
    constructor
    · simp only [benValidateR, hsize, hp, hd, hl, hi, hdigit, if_false, if_true, hval]
    · simp only [benDecR, hread, bind, Except.bind, hd, hl, hi, hdigit, if_false,
        if_true, hdec]
  · -- an integer without a sign
    obtain ⟨⟨hfirst, -⟩, hdigits⟩ := hhold
    have hd : 'i'.toUInt8 ≠ 'd'.toUInt8 := by decide
    have hl : 'i'.toUInt8 ≠ 'l'.toUInt8 := by decide
    simp only [List.length_singleton] at hdigits hend
    obtain ⟨hval, hdec⟩ := benInt_digits_truncated hds hdigits (by omega) 1
    have hminus : raw.code (p + 1) ≠ '-'.toUInt8 := by
      rw [htl] at hdigits
      rw [hdigits.1]
      exact (isDigit_ne hc).2.2.2.2.2
    have hp₁ : ¬ p + 1 ≥ raw.size := by omega
    have hread₁ := readByte_of_lt raw (p := p + 1) (by omega)
    constructor
    · simp only [benValidateR, hsize, hp, hfirst, hd, hl, if_false, if_true,
        benValidateI, hp₁, hminus, hval]
    · simp only [benDecR, hread, bind, Except.bind, hfirst, hd, hl, if_false,
        if_true, benDecI, hread₁, hminus, hdec]
  · -- an integer with a sign
    obtain ⟨⟨hfirst, hminus, -⟩, hdigits⟩ := hhold
    have hd : 'i'.toUInt8 ≠ 'd'.toUInt8 := by decide
    have hl : 'i'.toUInt8 ≠ 'l'.toUInt8 := by decide
    simp only [List.length_cons, List.length_nil, Nat.zero_add,
      Nat.reduceAdd] at hdigits hend
    obtain ⟨hval, hdec⟩ := benInt_digits_truncated hds hdigits (by omega) (-1)
    have hp₁ : ¬ p + 1 ≥ raw.size := by omega
    have hp₂ : ¬ p + 2 ≥ raw.size := by omega
    have hread₁ := readByte_of_lt raw (p := p + 1) (by omega)
    constructor
    · simp only [benValidateR, hsize, hp, hfirst, hd, hl, if_false, if_true,
        benValidateI, hp₁, hminus, hp₂, hval]
    · simp only [benDecR, hread, bind, Except.bind, hfirst, hd, hl, if_false,
        if_true, benDecI, hread₁, hminus, hdec]

end Soundness

/-! ## The two parsers on whole buffers -/

/-- The validator guards the decoder: whatever it accepts, the decoder turns
into a node, without any fault and with the same final cursor. -/
def GuardsDecoder (raw : Raw) : Prop :=
  ∀ q, benValidate raw = some q → ∃ node, benDec raw = .ok (some node, q)

/-- A buffer that ends inside a string length or inside an integer. -/
def TruncatedScalar (b : Bytes) : Prop :=
  ∃ pre ds, (pre = [] ∨ pre = ['i'.toUInt8] ∨ pre = ['i'.toUInt8, '-'.toUInt8]) ∧
    AllDigits ds ∧ ds ≠ [] ∧ b = pre ++ ds

section Buffers

variable {b : Bytes} (after : Bytes)

/-- A derivation of a prefix is followed on the whole buffer. -/
theorem parsers_of_isPrefix
    {d : BenDerivation} (h : d.yield <+: b) :
    benValidate ⟨buffer b after, b.length⟩ = some d.yield.length ∧
      benDec ⟨buffer b after, b.length⟩ = .ok (some d.toBen, d.yield.length) := by
  have hlen := h.length_le
  have hhold : Holds (buffer b after) 0 d.yield :=
    (holds_buffer_iff_isPrefix after hlen).mpr h
  simpa [benValidate, benDec] using
    (completeAt ⟨buffer b after, b.length⟩ b.length).value d 0 hhold
      (by simpa using hlen) hlen

theorem truncatedAt_buffer_iff :
    TruncatedAt ⟨buffer b after, b.length⟩ 0 ↔ TruncatedScalar b := by
  constructor
  · rintro ⟨pre, ds, hpre, hds, hne, hhold, hend⟩
    have hlen : (pre ++ ds).length = b.length := by simpa using hend
    have hstart := (holds_buffer_iff_isPrefix after hlen.le).mp hhold
    exact ⟨pre, ds, hpre, hds, hne, (hstart.eq_of_length hlen).symm⟩
  · rintro ⟨pre, ds, hpre, hds, hne, rfl⟩
    exact ⟨pre, ds, hpre, hds, hne, holds_buffer_self _ _, by simp⟩

/-- The validator accepts prefixes derived by the grammar and truncated
scalars. -/
theorem benValidate_sound
    {fuel q : Nat}
    (h : benValidateR ⟨buffer b after, b.length⟩ fuel 0 = some q) :
    (∃ d : BenDerivation, d.yield <+: b ∧ q = d.yield.length) ∨
      (TruncatedScalar b ∧ q = b.length) := by
  obtain ⟨hq, ⟨d, hhold, hqd⟩ | ⟨htrunc, hqs⟩⟩ := (soundAt _ fuel).value 0 q h
  · have hlen : d.yield.length ≤ b.length := by simpa [hqd] using hq
    exact Or.inl ⟨d, (holds_buffer_iff_isPrefix after hlen).mp hhold, by simpa using hqd⟩
  · exact Or.inr ⟨(truncatedAt_buffer_iff after).mp htrunc, hqs⟩

theorem truncatedScalar_spec
    (h : TruncatedScalar b) :
    benValidate ⟨buffer b after, b.length⟩ = some b.length ∧
      benDec ⟨buffer b after, b.length⟩ = .error .overread := by
  obtain ⟨fuel, hfuel⟩ : ∃ fuel, b.length = fuel + 1 := by
    obtain ⟨pre, ds, -, -, hne, rfl⟩ := h
    have := List.length_pos_iff.mpr hne
    exact ⟨(pre ++ ds).length - 1, by simp; omega⟩
  have hspec := truncated_spec ((truncatedAt_buffer_iff after).mpr h) fuel
  simpa [benValidate, benDec, ← hfuel] using hspec

end Buffers

/-- The validator guards the decoder on every buffer but those that end inside
a top-level string length or integer. -/
theorem guardsDecoder_iff (b after : Bytes) :
    GuardsDecoder ⟨buffer b after, b.length⟩ ↔ ¬ TruncatedScalar b := by
  constructor
  · intro hguard htrunc
    obtain ⟨hval, hdec⟩ := truncatedScalar_spec after htrunc
    obtain ⟨node, hnode⟩ := hguard _ hval
    rw [hdec] at hnode
    cases hnode
  · intro hfull q hq
    rcases benValidate_sound after hq with ⟨d, hd, rfl⟩ | ⟨htrunc, -⟩
    · exact ⟨d.toBen, (parsers_of_isPrefix after hd).2⟩
    · exact absurd htrunc hfull

/-- The datagram `12` is accepted, and decoding it reads the byte behind it. -/
theorem not_guardsDecoder_digits :
    ¬ GuardsDecoder ⟨buffer (cstr "12") [], 2⟩ := by
  intro hguard
  obtain ⟨node, hnode⟩ := hguard 2 (by decide)
  have hdec : benDec ⟨buffer (cstr "12") [], 2⟩ = .error .overread := by decide
  rw [hdec] at hnode
  cases hnode

/-- A truncated scalar does not start with the byte of a container. -/
theorem not_truncatedScalar_of_container
    {b : Bytes}
    (hfirst : b.head? = some 'd'.toUInt8 ∨ b.head? = some 'l'.toUInt8) :
    ¬ TruncatedScalar b := by
  rintro ⟨pre, ds, hpre, hds, hne, rfl⟩
  obtain ⟨c, tl, rfl⟩ := List.exists_cons_of_ne_nil hne
  obtain ⟨-, -, hcd, hcl, -, -⟩ := isDigit_ne ((allDigits_cons c tl).mp hds).1
  rcases hpre with rfl | rfl | rfl
  · simp [hcd, hcl] at hfirst
  · exact absurd hfirst (by simp [Char.toUInt8])
  · exact absurd hfirst (by simp [Char.toUInt8])

/-- What the validator accepts of a buffer that starts with a container. -/
theorem exists_derivation_of_benValidate
    {b after : Bytes} {q : Nat}
    (hfirst : b.head? = some 'd'.toUInt8 ∨ b.head? = some 'l'.toUInt8)
    (h : benValidate ⟨buffer b after, b.length⟩ = some q) :
    ∃ d : BenDerivation, d.yield <+: b ∧ q = d.yield.length := by
  rcases benValidate_sound after h with hd | ⟨htrunc, -⟩
  · exact hd
  · exact absurd htrunc (not_truncatedScalar_of_container hfirst)

/-- On buffers that start with a container the validator accepts exactly the
texts of the grammar, and the decoder returns the object of the derivation. -/
theorem parsers_realise_grammar
    (b after : Bytes)
    (hfirst : b.head? = some 'd'.toUInt8 ∨ b.head? = some 'l'.toUInt8) :
    ((benValidate ⟨buffer b after, b.length⟩).isSome ↔
        ∃ d : BenDerivation, d.yield <+: b) ∧
      (∀ d d' : BenDerivation, d.yield <+: b → d'.yield <+: b →
        d.yield = d'.yield) ∧
      (∀ d : BenDerivation, d.yield <+: b →
        benValidate ⟨buffer b after, b.length⟩ = some d.yield.length ∧
          benDec ⟨buffer b after, b.length⟩ =
            .ok (some d.toBen, d.yield.length)) := by
  refine ⟨⟨?_, ?_⟩, ?_, fun d hd => parsers_of_isPrefix after hd⟩
  · intro hsome
    obtain ⟨q, hq⟩ := Option.isSome_iff_exists.mp hsome
    obtain ⟨d, hd, -⟩ := exists_derivation_of_benValidate hfirst hq
    exact ⟨d, hd⟩
  · rintro ⟨d, hd⟩
    simp [(parsers_of_isPrefix after hd).1]
  · intro d d' hd hd'
    have hlen : d.yield.length = d'.yield.length := by
      have h := (parsers_of_isPrefix after hd).1
      rw [(parsers_of_isPrefix after hd').1] at h
      exact (Option.some.inj h).symm
    exact (List.prefix_of_prefix_length_le hd hd' hlen.le).eq_of_length hlen

/-- A dictionary with trailing bytes. -/
theorem parsers_realise_grammar_dict :
    (benValidate ⟨buffer (cstr "d1:ai05eexyz") [], 12⟩).isSome ↔
      ∃ d : BenDerivation, d.yield <+: cstr "d1:ai05eexyz" :=
  (parsers_realise_grammar (cstr "d1:ai05eexyz") [] (Or.inl (by decide))).1

end Torrentkino
