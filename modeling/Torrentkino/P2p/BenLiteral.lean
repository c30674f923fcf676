import Torrentkino.P2p.BenParse

/-!
# Literals of the bencode grammar

The two kinds of leaves of a bencode text are strings `D{1..4} ':' k bytes` and
integers `'i' ['-'] D{1..10} 'e'`, with the limits of `ben.h` on the length of
a string and on the absolute value of an integer.  The limits are fields of the
literals.

For each kind the module describes what validator and decoder do with it: a
complete literal is accepted and decoded, and what is accepted is a complete
literal or digits that run up to the end of the buffer.  In the second case the
scanners of the validator leave their loops without having seen the byte that
ends the numeral, report success, and the decoder reads on behind the buffer.
-/

namespace Torrentkino

open Memory Decimal

/-- `S`: a string with its length prefix. -/
structure StrLit where
  len : Bytes
  payload : Bytes
  digits : AllDigits len
  nonempty : len ≠ []
  short : len.length ≤ benStrMaxlen
  counts : decVal len = payload.length
  small : payload.length ≤ benStrMaxsize

/-- An integer with its optional sign. -/
structure IntLit where
  negative : Bool
  ds : Bytes
  digits : AllDigits ds
  nonempty : ds ≠ []
  short : ds.length ≤ benIntMaxlen
  small : decVal ds ≤ benIntMaxsize

/-- Bytes of a string. -/
def StrLit.yield (lit : StrLit) : Bytes :=
  lit.len ++ ':'.toUInt8 :: lit.payload

/-- Bytes of the optional sign. -/
def IntLit.sign (lit : IntLit) : Bytes :=
  if lit.negative then ['-'.toUInt8] else []

/-- Bytes of an integer. -/
def IntLit.yield (lit : IntLit) : Bytes :=
  'i'.toUInt8 :: (lit.sign ++ (lit.ds ++ ['e'.toUInt8]))

/-- Number denoted by an integer. -/
def IntLit.value (lit : IntLit) : Int :=
  if lit.negative then -(decVal lit.ds : Int) else decVal lit.ds

/-! ## Numerals in the buffer -/

/-- A digit is none of the bytes that steer the parsers. -/
theorem isDigit_ne
    {c : UInt8} (h : isDigit c = true) :
    c ≠ ':'.toUInt8 ∧ c ≠ 'e'.toUInt8 ∧ c ≠ 'd'.toUInt8 ∧
      c ≠ 'l'.toUInt8 ∧ c ≠ 'i'.toUInt8 ∧ c ≠ '-'.toUInt8 := by
  rw [isDigit_iff] at h
  refine ⟨?_, ?_, ?_, ?_, ?_, ?_⟩ <;>
    (rintro rfl; simp [Char.toUInt8] at h)

/-- Every stretch of memory starts with a maximal run of digits. -/
theorem exists_digitRun (mem : Mem) (p left : Nat) :
    ∃ ds : Bytes, AllDigits ds ∧ Holds mem p ds ∧ ds.length ≤ left ∧
      (ds.length < left → isDigit (mem (p + ds.length)) = false) := by
  induction left generalizing p with
  | zero =>
      exact ⟨[], by simp [AllDigits], by simp, by simp, by simp⟩
  | succ left ih =>
      cases hc : isDigit (mem p) with
      | false =>
          exact ⟨[], by simp [AllDigits], by simp, by simp, fun _ => by simpa using hc⟩
      | true =>
          obtain ⟨ds, hds, hhold, hlen, hstop⟩ := ih (p + 1)
          refine ⟨mem p :: ds, ?_, ⟨rfl, hhold⟩, by simpa using hlen, ?_⟩
          · exact (allDigits_cons _ _).mpr ⟨hc, hds⟩
          · intro hlt
            rw [List.length_cons, Nat.add_comm ds.length, ← Nat.add_assoc]
            exact hstop (by simpa using hlt)

/-- The checks on `strtol` pass for a short digit string. -/
theorem strtolStrict_digits
    {ds : Bytes} (hds : AllDigits ds) (hne : ds ≠ [])
    (hlen : ds.length ≤ benIntMaxlen) :
    strtolStrict ds = some (decVal ds : Int) := by
  have hlt : decVal ds < 10 ^ 10 :=
    lt_of_lt_of_le (decVal_lt_pow hds) (Nat.pow_le_pow_right (by omega) hlen)
  have hrange : (decVal ds : Int) < longMax := by
    simp only [longMax]
    omega
  have herr : ¬ longMax < (decVal ds : Int) := not_lt.mpr hrange.le
  have hnil : ¬ ([] : Bytes) = ds := fun h => hne h.symm
  simp only [strtolStrict, strtol_digits hds hne, herr, decide_false,
    Bool.false_eq_true, if_false, hnil, ne_eq, not_true_eq_false,
    min_eq_right hrange.le]

/-- `strtol` on a short digit string. -/
theorem strtolBuf_digits
    {raw : Raw} {start : Nat} {ds : Bytes}
    (hhold : Holds raw.code start ds) (hds : AllDigits ds) (hne : ds ≠ [])
    (hlen : ds.length ≤ benIntMaxlen) :
    strtolBuf raw start ds.length = .ok (decVal ds : Int) := by
  have hlt : decVal ds < 10 ^ 10 :=
    lt_of_lt_of_le (decVal_lt_pow hds) (Nat.pow_le_pow_right (by omega) hlen)
  have hrange : (decVal ds : Int) ≤ longMax := by
    simp only [longMax]
    omega
  have hbuf : ¬ ds.length ≥ bufSize := by
    simp only [benIntMaxlen] at hlen
    simp only [bufSize]
    omega
  rw [strtolBuf, if_neg hbuf, copy_of_holds hhold, strtol_digits hds hne,
    min_eq_right hrange]

/-- A loop that steps over single digits steps over a whole run of them. -/
theorem digitLoop_skip
    {β : Type} {mem : Mem} (loop : Nat → Nat → Nat → β)
    (hstep : ∀ left p i, isDigit (mem p) = true →
      loop (left + 1) p i = loop left (p + 1) (i + 1))
    {ds : Bytes} (hds : AllDigits ds) :
    ∀ {left p i : Nat}, Holds mem p ds → ds.length ≤ left →
      loop left p i =
        loop (left - ds.length) (p + ds.length) (i + ds.length) := by
  induction ds with
  | nil =>
      intro left p i _ _
      simp
  | cons c ds ih =>
      intro left p i hhold hlen
      rw [allDigits_cons] at hds
      obtain ⟨l, rfl⟩ : ∃ l, left = l + 1 := ⟨left - 1, by simp at hlen; omega⟩
      rw [hstep l p i (by rw [hhold.1]; exact hds.1),
        ih hds.2 hhold.2 (by simpa using hlen)]
      simp [Nat.add_assoc, Nat.add_comm 1]

section Scanners

variable {raw : Raw} {start left p i : Nat} {ds : Bytes}

theorem benValidateSLoop_skip
    (hds : AllDigits ds) (hhold : Holds raw.code p ds) (hlen : ds.length ≤ left) :
    benValidateSLoop raw start left p i =
      benValidateSLoop raw start (left - ds.length) (p + ds.length)
        (i + ds.length) :=
  digitLoop_skip (benValidateSLoop raw start)
    (fun l q j h => by rw [benValidateSLoop, if_pos h]) hds hhold hlen

theorem benValidateILoop_skip
    (hds : AllDigits ds) (hhold : Holds raw.code p ds) (hlen : ds.length ≤ left) :
    benValidateILoop raw start left p i =
      benValidateILoop raw start (left - ds.length) (p + ds.length)
        (i + ds.length) :=
  digitLoop_skip (benValidateILoop raw start)
    (fun l q j h => by rw [benValidateILoop, if_pos h]) hds hhold hlen

theorem benDecSLoop_skip
    (hds : AllDigits ds) (hhold : Holds raw.code p ds) (hlen : ds.length ≤ left) :
    benDecSLoop raw start left p i =
      benDecSLoop raw start (left - ds.length) (p + ds.length)
        (i + ds.length) :=
  digitLoop_skip (benDecSLoop raw start)
    (fun l q j h => by rw [benDecSLoop, if_pos h]) hds hhold hlen

theorem benDecILoop_skip
    (hds : AllDigits ds) (hhold : Holds raw.code p ds) (hlen : ds.length ≤ left) :
    benDecILoop raw start left p i =
      benDecILoop raw start (left - ds.length) (p + ds.length)
        (i + ds.length) :=
  digitLoop_skip (benDecILoop raw start)
    (fun l q j h => by rw [benDecILoop, if_pos h]) hds hhold hlen

end Scanners

/-! ## Strings -/

section Strings

variable {raw : Raw} {p : Nat}

/-- A complete string is accepted and decoded. -/
theorem benStr_complete
    (lit : StrLit) (hhold : Holds raw.code p lit.yield)
    (hfit : p + lit.yield.length ≤ raw.size) :
    benValidateS raw p = some (p + lit.yield.length) ∧
      benDecS raw p = .ok (.str lit.payload, p + lit.yield.length) := by
  obtain ⟨len, payload, hdig, hne, hshort, hcount, hsmall⟩ := lit
  simp only [StrLit.yield, holds_append, holds_cons, List.length_append,
    List.length_cons] at hhold hfit ⊢
  obtain ⟨hlen, hcolon, hpay⟩ := hhold
  have hpos : 0 < len.length := List.length_pos_iff.mpr hne
  have hshort' : len.length ≤ benIntMaxlen :=
    hshort.trans (by simp [benStrMaxlen, benIntMaxlen])
  have hnd : isDigit ':'.toUInt8 = false := by decide
  have hleft : len.length ≤ raw.size - p := by omega
  obtain ⟨left, hleft'⟩ : ∃ l, raw.size - p - len.length = l + 1 :=
    ⟨raw.size - p - len.length - 1, by omega⟩
  have hguard : ¬ (len.length ≤ 0 ∨ len.length > benStrMaxlen) := by omega
  have hrange :
      ¬ ((payload.length : Int) < 0 ∨ (payload.length : Int) > benStrMaxsize) := by
    omega
  constructor
  · have hloop : benValidateSLoop raw p (raw.size - p) p 0 =
        some (p + len.length + (payload.length + 1)) := by
      rw [benValidateSLoop_skip hdig hlen hleft, hleft', benValidateSLoop, hcolon,
        hnd, Nat.zero_add, if_neg hguard, copy_of_holds hlen,
        strtolStrict_digits hdig hne hshort']
      simp only [Bool.false_eq_true, if_false, if_true, hcount, hrange,
        Int.toNat_natCast]
    have hbound : ¬ p ≥ raw.size := by omega
    have hend : ¬ p + len.length + (payload.length + 1) > raw.size := by omega
    simp only [benValidateS, hbound, if_false, hloop, hend]
    rw [Nat.add_assoc]
  · have hstr : benStr raw (p + len.length + 1) (payload.length : Int) =
        .ok (.str payload) := by
      have hneg : ¬ (payload.length : Int) < 0 := by omega
      have hin : ¬ p + len.length + 1 + payload.length > raw.size := by omega
      simp only [benStr, hneg, if_false, Int.toNat_natCast, hin,
        copy_of_holds hpay]
    have hcursor : p + len.length + 1 + payload.length =
        p + (len.length + (payload.length + 1)) := by omega
    rw [benDecS, benDecSLoop_skip hdig hlen hleft, hleft', benDecSLoop, hcolon, hnd,
      Nat.zero_add, strtolBuf_digits hlen hdig hne hshort', hcount]
    simp only [Bool.false_eq_true, if_false, if_true, bind, Except.bind, hstr,
      pure, Except.pure, Int.toNat_natCast, hcursor]

/-- Digits up to the end of the buffer are accepted as a string, and the
decoder reads on behind the buffer. -/
theorem benStr_truncated
    {ds : Bytes} (hds : AllDigits ds) (hne : ds ≠ [])
    (hhold : Holds raw.code p ds) (hend : p + ds.length = raw.size) :
    benValidateS raw p = some raw.size ∧
      benDecS raw p = .error .overread := by
  have hpos : 0 < ds.length := List.length_pos_iff.mpr hne
  have hleft : raw.size - p = ds.length := by omega
  have hbound : ¬ p ≥ raw.size := by omega
  constructor
  · rw [benValidateS, if_neg hbound, benValidateSLoop_skip hds hhold hleft.ge, hleft,
      Nat.sub_self, benValidateSLoop, hend]
    simp
  · rw [benDecS, benDecSLoop_skip hds hhold hleft.ge, hleft, Nat.sub_self,
      benDecSLoop]

/-- What the string validator accepts. -/
theorem benValidateS_sound
    {q : Nat} (h : benValidateS raw p = some q) :
    (∃ lit : StrLit, Holds raw.code p lit.yield ∧
        q = p + lit.yield.length ∧ q ≤ raw.size) ∨
      (∃ ds, AllDigits ds ∧ ds ≠ [] ∧ Holds raw.code p ds ∧
        p + ds.length = raw.size ∧ q = raw.size) := by
  by_cases hbound : p ≥ raw.size
  · simp [benValidateS, hbound] at h
  obtain ⟨ds, hds, hhold, hlen, hstop⟩ :=
    exists_digitRun raw.code p (raw.size - p)
  simp only [benValidateS, hbound, if_false] at h
  rw [benValidateSLoop_skip hds hhold hlen, Nat.zero_add] at h
  rcases Nat.lt_or_ge ds.length (raw.size - p) with hlt | hge
  · -- the run is stopped by a byte that is not a digit
    left
    obtain ⟨left, hleft⟩ : ∃ l, raw.size - p - ds.length = l + 1 :=
      ⟨raw.size - p - ds.length - 1, by omega⟩
    rw [hleft, benValidateSLoop, hstop hlt] at h
    by_cases hcolon : raw.code (p + ds.length) = ':'.toUInt8
    · by_cases hguard : ds.length ≤ 0 ∨ ds.length > benStrMaxlen
      · simp only [hcolon, hguard, Bool.false_eq_true, if_false, if_true,
          reduceCtorEq] at h
      · have hne : ds ≠ [] := by
          rintro rfl
          simp at hguard
        have hshort : ds.length ≤ benStrMaxlen := by omega
        have hshort' : ds.length ≤ benIntMaxlen :=
          hshort.trans (by simp [benStrMaxlen, benIntMaxlen])
        rw [copy_of_holds hhold, strtolStrict_digits hds hne hshort'] at h
        by_cases hrange :
            (decVal ds : Int) < 0 ∨ (decVal ds : Int) > benStrMaxsize
        · simp only [hcolon, hguard, hrange, Bool.false_eq_true, if_false, if_true,
            reduceCtorEq] at h
        · simp only [hcolon, hguard, hrange, Bool.false_eq_true, if_false, if_true,
            Int.toNat_natCast] at h
          by_cases hfit : p + ds.length + (decVal ds + 1) > raw.size
          · simp [hfit] at h
          · have hq : q = p + ds.length + (decVal ds + 1) := by
              simpa [hfit] using h.symm
            let lit : StrLit :=
              { len := ds
                payload := copy raw.code (p + ds.length + 1) (decVal ds)
                digits := hds
                nonempty := hne
                short := hshort
                counts := by simp
                small := by rw [copy_length]; omega }
            refine ⟨lit, ?_, ?_, by omega⟩
            · simp only [lit, StrLit.yield, holds_append, holds_cons]
              exact ⟨hhold, hcolon, holds_copy _ _⟩
            · simp only [lit, StrLit.yield, List.length_append, List.length_cons,
                copy_length]
              omega
    · simp [hcolon] at h
  · -- the run of digits fills the rest of the buffer
    right
    have hend : p + ds.length = raw.size := by omega
    have hne : ds ≠ [] := by
      rintro rfl
      simp at hend
      omega
    have hzero : raw.size - p - ds.length = 0 := by omega
    rw [hzero, benValidateSLoop, hend] at h
    exact ⟨ds, hds, hne, hhold, hend, by simpa using h.symm⟩

end Strings

/-! ## Integers -/

section Integers

variable {raw : Raw} {start : Nat} {ds : Bytes}

/-- Complete digits of an integer are accepted and decoded. -/
theorem benInt_digits_complete
    (hds : AllDigits ds) (hne : ds ≠ []) (hshort : ds.length ≤ benIntMaxlen)
    (hsmall : decVal ds ≤ benIntMaxsize)
    (hhold : Holds raw.code start (ds ++ ['e'.toUInt8]))
    (hfit : start + ds.length + 1 ≤ raw.size) (sign : Int) :
    benValidateIDigits raw start = some (start + ds.length + 1) ∧
      benDecIDigits raw sign start =
        .ok (.int (sign * decVal ds), start + ds.length + 1) := by
  simp only [holds_append, holds_cons, holds_nil, and_true] at hhold
  obtain ⟨hdigits, he⟩ := hhold
  have hpos : 0 < ds.length := List.length_pos_iff.mpr hne
  have hnd : isDigit 'e'.toUInt8 = false := by decide
  have hleft : ds.length ≤ raw.size - start := by omega
  obtain ⟨left, hleft'⟩ : ∃ l, raw.size - start - ds.length = l + 1 :=
    ⟨raw.size - start - ds.length - 1, by omega⟩
  have hguard : ¬ (ds.length ≤ 0 ∨ ds.length > benIntMaxlen) := by omega
  have hrange :
      ¬ ((decVal ds : Int) < 0 ∨ (decVal ds : Int) > benIntMaxsize) := by
    omega
  have hend : ¬ start + ds.length + 1 > raw.size := by omega
  constructor
  · rw [benValidateIDigits, benValidateILoop_skip hds hdigits hleft, hleft',
      benValidateILoop, he, hnd, Nat.zero_add, if_neg hguard, copy_of_holds hdigits,
      strtolStrict_digits hds hne hshort]
    simp only [Bool.false_eq_true, if_false, if_true, hrange, hend]
  · rw [benDecIDigits, benDecILoop_skip hds hdigits hleft, hleft', benDecILoop, he,
      hnd, Nat.zero_add, strtolBuf_digits hdigits hds hne hshort]
    simp only [Bool.false_eq_true, if_false, if_true, bind, Except.bind, pure,
      Except.pure]

/-- Digits up to the end of the buffer are accepted as an integer. -/
theorem benInt_digits_truncated
    (hds : AllDigits ds) (hhold : Holds raw.code start ds)
    (hend : start + ds.length = raw.size) (sign : Int) :
    benValidateIDigits raw start = some raw.size ∧
      benDecIDigits raw sign start = .error .overread := by
  have hleft : raw.size - start = ds.length := by omega
  constructor
  · rw [benValidateIDigits, benValidateILoop_skip hds hhold hleft.ge, hleft,
      Nat.sub_self, benValidateILoop, hend]
    simp
  · rw [benDecIDigits, benDecILoop_skip hds hhold hleft.ge, hleft, Nat.sub_self,
      benDecILoop]
    rfl

/-- What the integer validator accepts behind the sign. -/
theorem benValidateIDigits_sound
    {q : Nat} (hbound : start < raw.size)
    (h : benValidateIDigits raw start = some q) :
    ∃ ds, AllDigits ds ∧ ds ≠ [] ∧ Holds raw.code start ds ∧ q ≤ raw.size ∧
      ((raw.code (start + ds.length) = 'e'.toUInt8 ∧ ds.length ≤ benIntMaxlen ∧
          decVal ds ≤ benIntMaxsize ∧ q = start + ds.length + 1) ∨
        (start + ds.length = raw.size ∧ q = raw.size)) := by
  obtain ⟨ds, hds, hhold, hlen, hstop⟩ :=
    exists_digitRun raw.code start (raw.size - start)
  rw [benValidateIDigits, benValidateILoop_skip hds hhold hlen, Nat.zero_add] at h
  rcases Nat.lt_or_ge ds.length (raw.size - start) with hlt | hge
  · obtain ⟨left, hleft⟩ : ∃ l, raw.size - start - ds.length = l + 1 :=
      ⟨raw.size - start - ds.length - 1, by omega⟩
    rw [hleft, benValidateILoop, hstop hlt] at h
    by_cases he : raw.code (start + ds.length) = 'e'.toUInt8
    · by_cases hguard : ds.length ≤ 0 ∨ ds.length > benIntMaxlen
      · simp only [he, hguard, Bool.false_eq_true, if_false, if_true,
          reduceCtorEq] at h
      · have hne : ds ≠ [] := by
          rintro rfl
          simp at hguard
        have hshort : ds.length ≤ benIntMaxlen := by omega
        rw [copy_of_holds hhold, strtolStrict_digits hds hne hshort] at h
        by_cases hrange :
            (decVal ds : Int) < 0 ∨ (decVal ds : Int) > benIntMaxsize
        · simp only [he, hguard, hrange, Bool.false_eq_true, if_false, if_true,
            reduceCtorEq] at h
        · have hend : ¬ start + ds.length + 1 > raw.size := by omega
          simp only [he, hguard, hrange, hend, Bool.false_eq_true, if_false, if_true,
            Option.some.injEq] at h
          exact ⟨ds, hds, hne, hhold, by omega,
            Or.inl ⟨he, hshort, by omega, h.symm⟩⟩
    · simp [he] at h
  · have hend : start + ds.length = raw.size := by omega
    have hne : ds ≠ [] := by
      rintro rfl
      simp at hend
      omega
    have hzero : raw.size - start - ds.length = 0 := by omega
    rw [hzero, benValidateILoop, hend] at h
    have hq : q = raw.size := by simpa using h.symm
    exact ⟨ds, hds, hne, hhold, hq.le, Or.inr ⟨hend, hq⟩⟩

variable {p : Nat}

/-- A complete integer is accepted and decoded. -/
theorem benInt_complete
    (lit : IntLit) (hhold : Holds raw.code p lit.yield)
    (hfit : p + lit.yield.length ≤ raw.size) :
    benValidateI raw p = some (p + lit.yield.length) ∧
      benDecI raw p = .ok (.int lit.value, p + lit.yield.length) := by
  obtain ⟨negative, ds, hds, hne, hshort, hsmall⟩ := lit
  obtain ⟨c, tl, htl⟩ := List.exists_cons_of_ne_nil hne
  cases negative with
  | true =>
      simp only [IntLit.yield, IntLit.sign, IntLit.value, if_true, holds_cons,
        List.cons_append, List.nil_append, List.length_cons, List.length_append,
        List.length_nil] at hhold hfit ⊢
      obtain ⟨-, hminus, hdigits⟩ := hhold
      obtain ⟨hval, hdec⟩ := benInt_digits_complete hds hne hshort hsmall hdigits
        (by omega) (-1)
      have h₁ : ¬ p + 1 ≥ raw.size := by omega
      have h₂ : ¬ p + 2 ≥ raw.size := by omega
      have hread : readByte raw (p + 1) = .ok '-'.toUInt8 := by
        rw [readByte, if_pos (by omega), hminus]
      have hcursor : p + (0 + 1) + 1 + ds.length + 1 =
          p + (ds.length + (0 + 1) + 1 + 1) := by omega
      constructor
      · rw [benValidateI, if_neg h₁, if_pos hminus, if_neg h₂, hval]
        exact congrArg some hcursor
      · rw [benDecI, hread]
        simp only [bind, Except.bind, if_true]
        rw [hdec]
        exact congrArg Except.ok (Prod.ext (by simp) hcursor)
  | false =>
      simp only [IntLit.yield, IntLit.sign, IntLit.value, Bool.false_eq_true, if_false,
        holds_cons, List.nil_append, List.length_cons, List.length_append,
        List.length_nil] at hhold hfit ⊢
      have hdigits := hhold.2
      obtain ⟨hval, hdec⟩ := benInt_digits_complete hds hne hshort hsmall hdigits
        (by omega) 1
      have hfirst : raw.code (p + 1) ≠ '-'.toUInt8 := by
        rw [htl] at hdigits hds
        rw [hdigits.1]
        exact (isDigit_ne ((allDigits_cons c tl).mp hds).1).2.2.2.2.2
      have h₁ : ¬ p + 1 ≥ raw.size := by omega
      have hread : readByte raw (p + 1) = .ok (raw.code (p + 1)) := by
        rw [readByte, if_pos (by omega)]
      have hcursor : p + 1 + ds.length + 1 = p + (ds.length + (0 + 1) + 1) := by omega
      constructor
      · rw [benValidateI, if_neg h₁, if_neg hfirst, hval]
        exact congrArg some hcursor
      · rw [benDecI, hread]
        simp only [bind, Except.bind, hfirst, if_false]
        rw [hdec]
        exact congrArg Except.ok (Prod.ext (by simp) hcursor)

/-- What the integer validator accepts. -/
theorem benValidateI_sound
    {q : Nat} (hi : raw.code p = 'i'.toUInt8)
    (h : benValidateI raw p = some q) :
    q ≤ raw.size ∧
      ((∃ lit : IntLit, Holds raw.code p lit.yield ∧ q = p + lit.yield.length) ∨
        (∃ pre ds, (pre = ['i'.toUInt8] ∨ pre = ['i'.toUInt8, '-'.toUInt8]) ∧
          AllDigits ds ∧ ds ≠ [] ∧ Holds raw.code p (pre ++ ds) ∧
          p + (pre ++ ds).length = raw.size ∧ q = raw.size)) := by
  by_cases h₁ : p + 1 ≥ raw.size
  · simp [benValidateI, h₁] at h
  by_cases hminus : raw.code (p + 1) = '-'.toUInt8
  · by_cases h₂ : p + 2 ≥ raw.size
    · simp [benValidateI, h₁, hminus, h₂] at h
    · simp only [benValidateI, h₁, hminus, h₂, if_false, if_true] at h
      obtain ⟨ds, hds, hne, hhold, hq, hcase⟩ :=
        benValidateIDigits_sound (by omega) h
      refine ⟨hq, ?_⟩
      rcases hcase with ⟨he, hshort, hsmall, rfl⟩ | ⟨hend, rfl⟩
      · left
        refine ⟨⟨true, ds, hds, hne, hshort, hsmall⟩, ?_, ?_⟩
        · simpa [IntLit.yield, IntLit.sign, hi, hminus, hhold] using he
        · simp [IntLit.yield, IntLit.sign]
          omega
      · right
        refine ⟨_, ds, Or.inr rfl, hds, hne, ⟨hi, hminus, hhold⟩, ?_, rfl⟩
        simp
        omega
  · simp only [benValidateI, h₁, hminus, if_false] at h
    obtain ⟨ds, hds, hne, hhold, hq, hcase⟩ :=
      benValidateIDigits_sound (by omega) h
    refine ⟨hq, ?_⟩
    rcases hcase with ⟨he, hshort, hsmall, rfl⟩ | ⟨hend, rfl⟩
    · left
      refine ⟨⟨false, ds, hds, hne, hshort, hsmall⟩, ?_, ?_⟩
      · simpa [IntLit.yield, IntLit.sign, hi, hhold] using he
      · simp [IntLit.yield, IntLit.sign]
        omega
    · right
      refine ⟨_, ds, Or.inl rfl, hds, hne, ⟨hi, hhold⟩, ?_, rfl⟩
      simp
      omega

end Integers

end Torrentkino
