import Mathlib.Data.List.Induction
import Mathlib.Data.List.TakeWhile
import Mathlib.Tactic
import Torrentkino.Lib.Memory

/-!
# Decimal numerals as byte strings

Reading and printing of decimal numerals, as C programs do it with `strtol`
and the conversion `%li`.

* `decVal` reads a digit string of any length, leading zeros included.
* `decimal` prints a natural number without superfluous zeros.
* `NoLeadingZero` is the syntactic form of a canonical numeral.  It is shown to
  be exactly the fixed-point condition `decimal (decVal ds) = ds`, and printing
  never makes a numeral longer.
* `strtol` follows the documented library function on a NUL-free string: white
  space, sign, digits, saturation at the range of a 64-bit `long`.
-/

namespace Torrentkino
namespace Decimal

open Memory

/-- The bytes `'0'` to `'9'`. -/
def isDigit (c : UInt8) : Bool :=
  '0'.toUInt8 ≤ c && c ≤ '9'.toUInt8

/-- Every byte of the string is a digit. -/
def AllDigits (ds : Bytes) : Prop :=
  ∀ c ∈ ds, isDigit c = true

instance (ds : Bytes) : Decidable (AllDigits ds) :=
  inferInstanceAs (Decidable (∀ c ∈ ds, isDigit c = true))

/-- Value of one digit. -/
def digitVal (c : UInt8) : Nat :=
  c.toNat - 48

/-- Value of a digit string. -/
def decVal (ds : Bytes) : Nat :=
  ds.foldl (fun v c => 10 * v + digitVal c) 0

/-- The digit with value `d`, for `d` below ten. -/
def digit (d : Nat) : UInt8 :=
  UInt8.ofNat (48 + d)

/-- Printing with an explicit bound on the number of divisions by ten. -/
def decimalAux : Nat → Nat → Bytes
  | 0, n => [digit n]
  | fuel + 1, n =>
      if n < 10 then [digit n]
      else decimalAux fuel (n / 10) ++ [digit (n % 10)]

/-- `%lu`: the numeral of a natural number. -/
def decimal (n : Nat) : Bytes :=
  decimalAux n n

/-- `%li`: the numeral of a signed number. -/
def decimalInt (i : Int) : Bytes :=
  if i < 0 then '-'.toUInt8 :: decimal i.natAbs else decimal i.natAbs

/-- A numeral without superfluous leading zeros. -/
def NoLeadingZero (ds : Bytes) : Prop :=
  ds.length = 1 ∨ ds.head? ≠ some '0'.toUInt8

instance (ds : Bytes) : Decidable (NoLeadingZero ds) :=
  inferInstanceAs (Decidable (_ ∨ _))

/-! ## Digits -/

theorem isDigit_iff (c : UInt8) :
    isDigit c = true ↔ 48 ≤ c.toNat ∧ c.toNat ≤ 57 := by
  simp [isDigit, Char.toUInt8, UInt8.le_iff_toNat_le]

theorem digitVal_lt
    {c : UInt8} (h : isDigit c = true) : digitVal c < 10 := by
  rw [isDigit_iff] at h
  simp only [digitVal]
  omega

theorem digit_digitVal
    {c : UInt8} (h : isDigit c = true) : digit (digitVal c) = c := by
  rw [isDigit_iff] at h
  apply UInt8.toNat_inj.mp
  simp only [digit, digitVal, UInt8.toNat_ofNat']
  omega

theorem digit_toNat
    {d : Nat} (h : d < 10) : (digit d).toNat = 48 + d := by
  simp only [digit, UInt8.toNat_ofNat']
  omega

theorem digitVal_digit
    {d : Nat} (h : d < 10) : digitVal (digit d) = d := by
  simp [digitVal, digit_toNat h]

theorem isDigit_digit
    {d : Nat} (h : d < 10) : isDigit (digit d) = true := by
  rw [isDigit_iff, digit_toNat h]
  omega

/-! ## Values -/

@[simp] theorem decVal_nil : decVal [] = 0 := rfl

@[simp] theorem decVal_singleton (c : UInt8) :
    decVal [c] = digitVal c := by
  simp [decVal]

theorem decVal_concat (ds : Bytes) (c : UInt8) :
    decVal (ds ++ [c]) = 10 * decVal ds + digitVal c := by
  simp [decVal]

theorem allDigits_append (u v : Bytes) :
    AllDigits (u ++ v) ↔ AllDigits u ∧ AllDigits v := by
  simp only [AllDigits, List.mem_append]
  constructor
  · intro h
    exact ⟨fun c hc => h c (Or.inl hc), fun c hc => h c (Or.inr hc)⟩
  · rintro ⟨hu, hv⟩ c (hc | hc)
    · exact hu c hc
    · exact hv c hc

theorem allDigits_cons (c : UInt8) (ds : Bytes) :
    AllDigits (c :: ds) ↔ isDigit c = true ∧ AllDigits ds := by
  simp [AllDigits]

/-- A numeral of `k` digits is below `10 ^ k`. -/
theorem decVal_lt_pow
    {ds : Bytes} (h : AllDigits ds) : decVal ds < 10 ^ ds.length := by
  induction ds using List.reverseRecOn with
  | nil =>
      simp
  | append_singleton ds c ih =>
      rw [allDigits_append] at h
      have hc : digitVal c < 10 := digitVal_lt (h.2 c (by simp))
      have hds := ih h.1
      rw [decVal_concat, List.length_append, List.length_singleton, pow_succ]
      omega

/-! ## Printing -/

/-- More fuel than the number itself does not change what is printed. -/
theorem decimalAux_fuel :
    ∀ (n fuel : Nat), n ≤ fuel → decimalAux fuel n = decimal n := by
  intro n
  induction n using Nat.strong_induction_on with
  | _ n ih =>
      intro fuel hfuel
      by_cases hn : n < 10
      · cases fuel <;> cases n <;> simp_all [decimal, decimalAux]
      · obtain ⟨m, rfl⟩ : ∃ m, n = m + 1 := ⟨n - 1, by omega⟩
        obtain ⟨f, rfl⟩ : ∃ f, fuel = f + 1 := ⟨fuel - 1, by omega⟩
        have hdiv : (m + 1) / 10 < m + 1 := by omega
        have hleft := ih _ hdiv f (by omega)
        have hright := ih _ hdiv m (by omega)
        simp only [decimal, decimalAux, hn, if_false] at hleft hright ⊢
        rw [hleft, hright]

theorem decimal_of_lt
    {n : Nat} (h : n < 10) : decimal n = [digit n] := by
  cases n <;> simp_all [decimal, decimalAux]

theorem decimal_of_ge
    {n : Nat} (h : 10 ≤ n) :
    decimal n = decimal (n / 10) ++ [digit (n % 10)] := by
  obtain ⟨m, rfl⟩ : ∃ m, n = m + 1 := ⟨n - 1, by omega⟩
  have hlt : ¬ m + 1 < 10 := by omega
  have hfuel := decimalAux_fuel ((m + 1) / 10) m (by omega)
  simp only [decimal, decimalAux, hlt, if_false] at hfuel ⊢
  rw [hfuel]

theorem decimal_ne_nil (n : Nat) : decimal n ≠ [] := by
  by_cases h : n < 10
  · simp [decimal_of_lt h]
  · simp [decimal_of_ge (Nat.le_of_not_lt h)]

theorem allDigits_decimal (n : Nat) : AllDigits (decimal n) := by
  induction n using Nat.strong_induction_on with
  | _ n ih =>
      by_cases h : n < 10
      · rw [decimal_of_lt h]
        simpa [AllDigits] using isDigit_digit h
      · have hge : 10 ≤ n := Nat.le_of_not_lt h
        rw [decimal_of_ge hge, allDigits_append]
        refine ⟨ih _ (by omega), ?_⟩
        simpa [AllDigits] using isDigit_digit (Nat.mod_lt n (by omega))

theorem zero_not_mem_decimal (n : Nat) : (0 : UInt8) ∉ decimal n := by
  intro hc
  cases allDigits_decimal n 0 hc

/-- Reading back what was printed. -/
@[simp] theorem decVal_decimal (n : Nat) : decVal (decimal n) = n := by
  induction n using Nat.strong_induction_on with
  | _ n ih =>
      by_cases h : n < 10
      · rw [decimal_of_lt h, decVal_singleton, digitVal_digit h]
      · have hge : 10 ≤ n := Nat.le_of_not_lt h
        rw [decimal_of_ge hge, decVal_concat, ih _ (by omega),
          digitVal_digit (Nat.mod_lt n (by omega))]
        omega

/-- A number below `10 ^ k` prints with at most `k` digits. -/
theorem decimal_length_le
    {k n : Nat} (hk : 1 ≤ k) (h : n < 10 ^ k) :
    (decimal n).length ≤ k := by
  induction k generalizing n with
  | zero =>
      omega
  | succ k ih =>
      by_cases hn : n < 10
      · simp [decimal_of_lt hn]
      · rw [decimal_of_ge (Nat.le_of_not_lt hn)]
        have hk' : 1 ≤ k := by
          rcases Nat.eq_zero_or_pos k with rfl | hpos
          · simp at h
            omega
          · exact hpos
        have hdiv : n / 10 < 10 ^ k := by
          rw [pow_succ] at h
          omega
        have := ih hk' hdiv
        simp
        omega

/-- The first printed digit of a positive number is not zero. -/
theorem decimal_head_ne_zero
    {n : Nat} (h : 1 ≤ n) : (decimal n).head? ≠ some '0'.toUInt8 := by
  induction n using Nat.strong_induction_on with
  | _ n ih =>
      by_cases hn : n < 10
      · rw [decimal_of_lt hn]
        intro hhead
        have hval := congrArg UInt8.toNat (Option.some.inj hhead)
        rw [digit_toNat hn] at hval
        simp [Char.toUInt8] at hval
        omega
      · rw [decimal_of_ge (Nat.le_of_not_lt hn),
          List.head?_append_of_ne_nil _ (decimal_ne_nil _)]
        exact ih _ (by omega) (by omega)

theorem noLeadingZero_decimal (n : Nat) : NoLeadingZero (decimal n) := by
  rcases Nat.eq_zero_or_pos n with rfl | h
  · exact Or.inl rfl
  · exact Or.inr (decimal_head_ne_zero h)

/-! ## Canonical numerals -/

/-- A digit string that starts with a nonzero digit has a positive value. -/
theorem decVal_pos
    {ds : Bytes} (hds : AllDigits ds) (hne : ds ≠ [])
    (hhead : ds.head? ≠ some '0'.toUInt8) : 1 ≤ decVal ds := by
  induction ds using List.reverseRecOn with
  | nil =>
      exact absurd rfl hne
  | append_singleton ds c ih =>
      rw [decVal_concat]
      rw [allDigits_append] at hds
      by_cases hnil : ds = []
      · subst hnil
        have hc := hds.2 c (by simp)
        rw [isDigit_iff] at hc
        have h48 : c.toNat ≠ 48 := by
          intro h
          apply hhead
          simp only [List.nil_append, List.head?_cons, Option.some.injEq]
          apply UInt8.toNat_inj.mp
          simpa [Char.toUInt8] using h
        simp only [decVal_nil, digitVal]
        omega
      · rw [List.head?_append_of_ne_nil _ hnil] at hhead
        have := ih hds.1 hnil hhead
        omega

/-- Printing the value of a numeral does not make it longer. -/
theorem decimal_decVal_length_le
    {ds : Bytes} (hds : AllDigits ds) (hne : ds ≠ []) :
    (decimal (decVal ds)).length ≤ ds.length :=
  decimal_length_le (List.length_pos_iff.mpr hne) (decVal_lt_pow hds)

/-- A numeral is reproduced by printing its value iff it is canonical. -/
theorem decimal_decVal_eq_iff
    {ds : Bytes} (hds : AllDigits ds) (hne : ds ≠ []) :
    decimal (decVal ds) = ds ↔ NoLeadingZero ds := by
  constructor
  · intro h
    rw [← h]
    exact noLeadingZero_decimal _
  · intro h
    induction ds using List.reverseRecOn with
    | nil =>
        exact absurd rfl hne
    | append_singleton ds c ih =>
        rw [allDigits_append] at hds
        have hc : isDigit c = true := hds.2 c (by simp)
        by_cases hnil : ds = []
        · subst hnil
          rw [List.nil_append, decVal_singleton,
            decimal_of_lt (digitVal_lt hc), digit_digitVal hc]
        · have hhead : ds.head? ≠ some '0'.toUInt8 := by
            rcases h with hlen | hhead
            · have := List.length_pos_iff.mpr hnil
              simp at hlen
              exact absurd hlen hnil
            · rwa [List.head?_append_of_ne_nil _ hnil] at hhead
          have hpos := decVal_pos hds.1 hnil hhead
          have hlt := digitVal_lt hc
          have hdiv : (10 * decVal ds + digitVal c) / 10 = decVal ds := by omega
          have hmod : (10 * decVal ds + digitVal c) % 10 = digitVal c := by omega
          rw [decVal_concat, decimal_of_ge (by omega), hdiv, hmod,
            ih hds.1 hnil (Or.inr hhead), digit_digitVal hc]

/-! ## `strtol` -/

/-- Largest value of a 64-bit `long`. -/
def longMax : Int := 2 ^ 63 - 1

/-- Smallest value of a 64-bit `long`. -/
def longMin : Int := -2 ^ 63

/-- The C locale's white space. -/
def isSpace (c : UInt8) : Bool :=
  c == 32 || (9 ≤ c && c ≤ 13)

/-- What one call of `strtol` reports: its value, whether `errno` was set, and
the part of the string behind `*endptr`. -/
structure StrtolResult where
  val : Int
  errno : Bool
  rest : Bytes
deriving DecidableEq, Repr

/-- `strtol(s, &end, 10)` on a NUL-terminated string with content `s`. -/
def strtol (s : Bytes) : StrtolResult :=
  let t := s.dropWhile isSpace
  let signed := t.head? = some '-'.toUInt8 ∨ t.head? = some '+'.toUInt8
  let u := if signed then t.tail else t
  let ds := u.takeWhile isDigit
  if ds = [] then
    ⟨0, false, s⟩
  else
    let v : Int :=
      if t.head? = some '-'.toUInt8 then -(decVal ds : Int) else decVal ds
    ⟨max longMin (min longMax v), decide (v < longMin ∨ longMax < v),
      u.dropWhile isDigit⟩

theorem takeWhile_of_allDigits
    {ds : Bytes} (h : AllDigits ds) : ds.takeWhile isDigit = ds :=
  List.takeWhile_eq_self_iff.mpr h

theorem dropWhile_of_allDigits
    {ds : Bytes} (h : AllDigits ds) : ds.dropWhile isDigit = [] :=
  List.dropWhile_eq_nil_iff.mpr h

/-- On a plain digit string `strtol` reads everything and only saturates. -/
theorem strtol_digits
    {ds : Bytes} (hds : AllDigits ds) (hne : ds ≠ []) :
    strtol ds =
      ⟨min longMax (decVal ds : Int), decide (longMax < (decVal ds : Int)), []⟩ := by
  obtain ⟨c, tl, rfl⟩ := List.exists_cons_of_ne_nil hne
  have hc := ((allDigits_cons c tl).mp hds).1
  have hrange := (isDigit_iff c).mp hc
  have hspace : isSpace c = false := by
    simp only [isSpace, Bool.or_eq_false_iff, beq_eq_false_iff_ne, ne_eq,
      Bool.and_eq_false_iff, decide_eq_false_iff_not, UInt8.le_iff_toNat_le,
      ← UInt8.toNat_inj]
    simp
    omega
  have hminus : c ≠ '-'.toUInt8 := by
    rintro rfl
    simp [Char.toUInt8] at hrange
  have hplus : c ≠ '+'.toUInt8 := by
    rintro rfl
    simp [Char.toUInt8] at hrange
  have hdrop : (c :: tl).dropWhile isSpace = c :: tl := by
    simp [hspace]
  have hnonneg : (0 : Int) ≤ decVal (c :: tl) := Int.natCast_nonneg _
  have hmin : longMin ≤ min longMax (decVal (c :: tl) : Int) := by
    simp only [longMin, longMax]
    omega
  have hlow : ¬ (decVal (c :: tl) : Int) < longMin := by
    simp only [longMin]
    omega
  simp only [strtol, hdrop, List.head?_cons, Option.some.injEq, hminus, hplus,
    or_self, if_false, takeWhile_of_allDigits hds, dropWhile_of_allDigits hds,
    reduceCtorEq, hlow, false_or, max_eq_right hmin]

end Decimal
end Torrentkino
