import Torrentkino.P2p.BenGrammar

/-!
# Encoding and decoding are inverse

Every tree within the limits of `ben.h` has a derivation whose bytes are the
output of the encoder, so validator and decoder reproduce the tree.

In the other direction the encoder reproduces the bytes of a derivation exactly
when all its numerals are canonical.  The encoder never writes more bytes than
the derivation has, and it writes as many only for canonical numerals; this
inequality is what carries the induction through concatenations.
-/

namespace Torrentkino

open Memory Decimal

namespace Ben

mutual

/-- Strings of at most `BEN_STR_MAXSIZE` bytes and integers of absolute value at
most `BEN_INT_MAXSIZE` throughout. -/
def Bounded : Ben → Prop
  | str s => s.length ≤ benStrMaxsize
  | int i => i.natAbs ≤ benIntMaxsize
  | list l => BoundedList l
  | dict d => BoundedDict d

/-- `Bounded` for the items of a list. -/
def BoundedList : List Ben → Prop
  | [] => True
  | v :: l => Bounded v ∧ BoundedList l

/-- `Bounded` for the entries of a dictionary. -/
def BoundedDict : List (Bytes × Ben) → Prop
  | [] => True
  | (k, v) :: d => k.length ≤ benStrMaxsize ∧ Bounded v ∧ BoundedDict d

end

end Ben

/-! ## Canonical derivations -/

/-- The length prefix has no superfluous leading zeros. -/
def StrLit.Canonical (lit : StrLit) : Prop :=
  NoLeadingZero lit.len

/-- The digits have no superfluous leading zeros and the number is not `-0`. -/
def IntLit.Canonical (lit : IntLit) : Prop :=
  NoLeadingZero lit.ds ∧ ¬ (lit.negative = true ∧ lit.ds = ['0'.toUInt8])

namespace BenDerivation

mutual

/-- Every string length and every integer is in canonical decimal form. -/
def Canonical : BenDerivation → Prop
  | str lit => lit.Canonical
  | int lit => lit.Canonical
  | list items => CanonicalItems items
  | dict entries => CanonicalEntries entries

/-- `Canonical` for the items of a list. -/
def CanonicalItems : List BenDerivation → Prop
  | [] => True
  | v :: items => Canonical v ∧ CanonicalItems items

/-- `Canonical` for the entries of a dictionary. -/
def CanonicalEntries : List (StrLit × BenDerivation) → Prop
  | [] => True
  | (k, v) :: entries => k.Canonical ∧ Canonical v ∧ CanonicalEntries entries

end

end BenDerivation

/-! ## From trees to derivations -/

/-- The literal the encoder writes for a string. -/
theorem exists_strLit
    {s : Bytes} (h : s.length ≤ benStrMaxsize) :
    ∃ lit : StrLit, lit.yield = benEncStr s ∧ lit.payload = s := by
  have hlen : (decimal s.length).length ≤ benStrMaxlen :=
    decimal_length_le (by decide)
      (lt_of_le_of_lt h (by simp [benStrMaxsize, benStrMaxlen]))
  exact ⟨⟨decimal s.length, s, allDigits_decimal _, decimal_ne_nil _, hlen, by simp, h⟩,
    rfl, rfl⟩

/-- The literal the encoder writes for an integer. -/
theorem exists_intLit
    {i : Int} (h : i.natAbs ≤ benIntMaxsize) :
    ∃ lit : IntLit, lit.yield = benEncRec (.int i) ∧ lit.value = i := by
  have hlen : (decimal i.natAbs).length ≤ benIntMaxlen :=
    decimal_length_le (by decide)
      (lt_of_le_of_lt h (by simp [benIntMaxsize, benIntMaxlen]))
  refine ⟨⟨decide (i < 0), decimal i.natAbs, allDigits_decimal _, decimal_ne_nil _,
    hlen, by simpa using h⟩, ?_, ?_⟩
  · by_cases hneg : i < 0 <;>
      simp [IntLit.yield, IntLit.sign, benEncRec, decimalInt, hneg]
  · by_cases hneg : i < 0
    · simp only [IntLit.value, hneg, decide_true, if_true, decVal_decimal]
      omega
    · simp only [IntLit.value, hneg, decide_false, Bool.false_eq_true, if_false,
        decVal_decimal]
      omega

mutual

/-- A bounded tree is derived by the bytes the encoder writes for it. -/
theorem exists_derivation :
    ∀ t : Ben, t.Bounded →
      ∃ d : BenDerivation, d.yield = benEncRec t ∧ d.toBen = t
  | .str s, h => by
      obtain ⟨lit, hyield, hpay⟩ := exists_strLit h
      exact ⟨.str lit, hyield, by rw [BenDerivation.toBen, hpay]⟩
  | .int i, h => by
      obtain ⟨lit, hyield, hval⟩ := exists_intLit h
      exact ⟨.int lit, hyield, by rw [BenDerivation.toBen, hval]⟩
  | .list l, h => by
      obtain ⟨items, hyield, hben⟩ := exists_derivation_items l h
      exact ⟨.list items, by simp [BenDerivation.yield, benEncRec, hyield],
        by rw [BenDerivation.toBen, hben]⟩
  | .dict d, h => by
      obtain ⟨entries, hyield, hben⟩ := exists_derivation_entries d h
      exact ⟨.dict entries, by simp [BenDerivation.yield, benEncRec, hyield],
        by rw [BenDerivation.toBen, hben]⟩

theorem exists_derivation_items :
    ∀ l : List Ben, Ben.BoundedList l →
      ∃ items, BenDerivation.yieldItems items = benEncRecList l ∧
        BenDerivation.toBenItems items = l
  | [], _ => ⟨[], rfl, rfl⟩
  | v :: l, h => by
      obtain ⟨d, hyield, hben⟩ := exists_derivation v h.1
      obtain ⟨items, hyields, hbens⟩ := exists_derivation_items l h.2
      exact ⟨d :: items, by rw [BenDerivation.yieldItems, benEncRecList, hyield, hyields],
        by rw [BenDerivation.toBenItems, hben, hbens]⟩

theorem exists_derivation_entries :
    ∀ d : List (Bytes × Ben), Ben.BoundedDict d →
      ∃ entries, BenDerivation.yieldEntries entries = benEncRecDict d ∧
        BenDerivation.toBenEntries entries = d
  | [], _ => ⟨[], rfl, rfl⟩
  | (k, v) :: d, h => by
      obtain ⟨lit, hkey, hpay⟩ := exists_strLit h.1
      obtain ⟨dv, hyield, hben⟩ := exists_derivation v h.2.1
      obtain ⟨entries, hyields, hbens⟩ := exists_derivation_entries d h.2.2
      refine ⟨(lit, dv) :: entries, ?_, ?_⟩
      · rw [BenDerivation.yieldEntries, benEncRecDict, hkey, hyield, hyields,
          List.append_assoc]
      · rw [BenDerivation.toBenEntries, hpay, hben, hbens]

end

/-! ## From derivations to encodings -/

/-- Concatenations of pairwise shorter parts agree iff the parts agree. -/
theorem append_eq_append_iff_of_length_le
    {α : Type} {u u' v v' : List α}
    (hu : u.length ≤ u'.length) (hv : v.length ≤ v'.length) :
    u ++ v = u' ++ v' ↔ u = u' ∧ v = v' := by
  constructor
  · intro h
    have hlen := congrArg List.length h
    simp only [List.length_append] at hlen
    exact List.append_inj h (by omega)
  · rintro ⟨rfl, rfl⟩
    rfl

/-- Encoding the string of a literal. -/
theorem benEncStr_payload (lit : StrLit) :
    (benEncStr lit.payload).length ≤ lit.yield.length ∧
      (benEncStr lit.payload = lit.yield ↔ lit.Canonical) := by
  have hlen := decimal_decVal_length_le lit.digits lit.nonempty
  rw [lit.counts] at hlen
  have hiff := decimal_decVal_eq_iff lit.digits lit.nonempty
  rw [lit.counts] at hiff
  constructor
  · simp [benEncStr, StrLit.yield, hlen]
  · rw [benEncStr, StrLit.yield, List.append_left_inj]
    exact hiff

/-- A digit string has the value zero and no leading zeros only as `0`. -/
theorem eq_zero_of_noLeadingZero
    {ds : Bytes} (hds : AllDigits ds) (hne : ds ≠ []) (h : NoLeadingZero ds)
    (hzero : decVal ds = 0) : ds = ['0'.toUInt8] := by
  have heq := (decimal_decVal_eq_iff hds hne).mpr h
  rw [hzero] at heq
  rw [← heq]
  decide

/-- Encoding the integer of a literal. -/
theorem benEncInt_value (lit : IntLit) :
    (benEncRec (.int lit.value)).length ≤ lit.yield.length ∧
      (benEncRec (.int lit.value) = lit.yield ↔ lit.Canonical) := by
  obtain ⟨negative, ds, hds, hne, hshort, hsmall⟩ := lit
  have hlen := decimal_decVal_length_le hds hne
  have hiff := decimal_decVal_eq_iff hds hne
  cases negative with
  | false =>
      have hpos : ¬ (decVal ds : Int) < 0 := by omega
      simp only [IntLit.value, IntLit.yield, IntLit.sign, IntLit.Canonical, benEncRec,
        decimalInt, Bool.false_eq_true, if_false, hpos, Int.natAbs_natCast,
        List.nil_append, List.cons_append, List.length_cons, List.length_append,
        List.cons.injEq, true_and, List.append_left_inj, false_and,
        not_false_eq_true, and_true]
      exact ⟨by omega, hiff⟩
  | true =>
      rcases Nat.eq_zero_or_pos (decVal ds) with hzero | hpos
      · -- the sign of a zero is not reproduced
        have hdec : decimal 0 = ['0'.toUInt8] := by decide
        have hdslen : 1 ≤ ds.length := List.length_pos_iff.mpr hne
        simp only [IntLit.value, IntLit.yield, IntLit.sign, IntLit.Canonical, benEncRec,
          decimalInt, if_true, hzero, Int.natCast_zero, neg_zero, lt_irrefl, if_false,
          Int.natAbs_zero, hdec, List.cons_append, List.nil_append, List.length_cons,
          List.length_append, List.length_nil, List.cons.injEq, true_and]
        refine ⟨by omega, ?_⟩
        constructor
        · rintro ⟨hfirst, -⟩
          exact absurd hfirst (by decide)
        · rintro ⟨hnlz, hne0⟩
          exact absurd (eq_zero_of_noLeadingZero hds hne hnlz hzero) hne0
      · have hneg : -(decVal ds : Int) < 0 := by omega
        have hds0 : ds ≠ ['0'.toUInt8] := by
          rintro rfl
          revert hpos
          decide
        simp only [IntLit.value, IntLit.yield, IntLit.sign, IntLit.Canonical, benEncRec,
          decimalInt, if_true, hneg, Int.natAbs_neg, Int.natAbs_natCast,
          List.cons_append, List.nil_append, List.length_cons, List.length_append,
          List.cons.injEq, true_and, List.append_left_inj, hds0, not_false_eq_true,
          and_true]
        exact ⟨by omega, hiff⟩

mutual

/-- Encoding the object of a derivation. -/
theorem benEncRec_toBen :
    ∀ d : BenDerivation,
      (benEncRec d.toBen).length ≤ d.yield.length ∧
        (benEncRec d.toBen = d.yield ↔ d.Canonical)
  | .str lit => benEncStr_payload lit
  | .int lit => benEncInt_value lit
  | .list items => by
      obtain ⟨hlen, hiff⟩ := benEncRecList_toBen items
      simp only [BenDerivation.toBen, BenDerivation.yield, BenDerivation.Canonical,
        benEncRec, List.cons_append, List.length_cons, List.length_append,
        List.cons.injEq, true_and, List.append_left_inj]
      exact ⟨by omega, hiff⟩
  | .dict entries => by
      obtain ⟨hlen, hiff⟩ := benEncRecDict_toBen entries
      simp only [BenDerivation.toBen, BenDerivation.yield, BenDerivation.Canonical,
        benEncRec, List.cons_append, List.length_cons, List.length_append,
        List.cons.injEq, true_and, List.append_left_inj]
      exact ⟨by omega, hiff⟩

theorem benEncRecList_toBen :
    ∀ items : List BenDerivation,
      (benEncRecList (BenDerivation.toBenItems items)).length ≤
          (BenDerivation.yieldItems items).length ∧
        (benEncRecList (BenDerivation.toBenItems items) =
            BenDerivation.yieldItems items ↔
          BenDerivation.CanonicalItems items)
  | [] => by
      simp [BenDerivation.toBenItems, BenDerivation.yieldItems,
        BenDerivation.CanonicalItems, benEncRecList]
  | v :: items => by
      obtain ⟨hlen, hiff⟩ := benEncRec_toBen v
      obtain ⟨hlens, hiffs⟩ := benEncRecList_toBen items
      simp only [BenDerivation.toBenItems, BenDerivation.yieldItems,
        BenDerivation.CanonicalItems, benEncRecList, List.length_append]
      refine ⟨by omega, ?_⟩
      rw [append_eq_append_iff_of_length_le hlen hlens, hiff, hiffs]

theorem benEncRecDict_toBen :
    ∀ entries : List (StrLit × BenDerivation),
      (benEncRecDict (BenDerivation.toBenEntries entries)).length ≤
          (BenDerivation.yieldEntries entries).length ∧
        (benEncRecDict (BenDerivation.toBenEntries entries) =
            BenDerivation.yieldEntries entries ↔
          BenDerivation.CanonicalEntries entries)
  | [] => by
      simp [BenDerivation.toBenEntries, BenDerivation.yieldEntries,
        BenDerivation.CanonicalEntries, benEncRecDict]
  | (k, v) :: entries => by
      obtain ⟨hlenk, hiffk⟩ := benEncStr_payload k
      obtain ⟨hlen, hiff⟩ := benEncRec_toBen v
      obtain ⟨hlens, hiffs⟩ := benEncRecDict_toBen entries
      simp only [BenDerivation.toBenEntries, BenDerivation.yieldEntries,
        BenDerivation.CanonicalEntries, benEncRecDict, List.length_append,
        List.append_assoc]
      refine ⟨by omega, ?_⟩
      rw [append_eq_append_iff_of_length_le hlenk (by simp only [List.length_append]; omega),
        append_eq_append_iff_of_length_le hlen hlens, hiffk, hiff, hiffs]

end

/-! ## Round trips -/

/-- What is encoded is accepted and decoded to the same tree. -/
theorem benDec_benEnc
    {t : Ben} (ht : t.Bounded) (after : Bytes) :
    benEnc t = some (benEncRec t) ∧
      benValidate ⟨buffer (benEncRec t) after, (benEncRec t).length⟩ =
        some (benEncRec t).length ∧
      benDec ⟨buffer (benEncRec t) after, (benEncRec t).length⟩ =
        .ok (some t, (benEncRec t).length) := by
  obtain ⟨d, hyield, hben⟩ := exists_derivation t ht
  have hstart : d.yield <+: benEncRec t := by rw [hyield]
  have hparse := parsers_of_isPrefix after hstart
  rw [hyield, hben] at hparse
  exact ⟨benEnc_eq t, hparse⟩

/-- Encoding and decoding are inverse: bounded trees survive a round trip, and
an accepted container is reproduced iff its numerals are canonical. -/
theorem ben_round_trip :
    (∀ (t : Ben) (after : Bytes), t.Bounded →
      ∃ code, benEnc t = some code ∧
        benValidate ⟨buffer code after, code.length⟩ = some code.length ∧
        benDec ⟨buffer code after, code.length⟩ = .ok (some t, code.length)) ∧
    (∀ (b after : Bytes) (q : Nat),
      (b.head? = some 'd'.toUInt8 ∨ b.head? = some 'l'.toUInt8) →
      benValidate ⟨buffer b after, b.length⟩ = some q →
      ∃ t, benDec ⟨buffer b after, b.length⟩ = .ok (some t, q) ∧
        (∃ d : BenDerivation, d.yield = b.take q) ∧
        ∀ d : BenDerivation, d.yield = b.take q →
          d.toBen = t ∧ (benEnc t = some (b.take q) ↔ d.Canonical)) := by
  constructor
  · intro t after ht
    exact ⟨benEncRec t, benDec_benEnc ht after⟩
  · intro b after q hfirst hq
    obtain ⟨d, hd, rfl⟩ := exists_derivation_of_benValidate hfirst hq
    have hdec := (parsers_of_isPrefix after hd).2
    refine ⟨d.toBen, hdec, ⟨d, List.prefix_iff_eq_take.mp hd⟩, ?_⟩
    intro d' hd'
    have hstart : d'.yield <+: b := by
      rw [hd']
      exact List.take_prefix _ _
    have hdec' := (parsers_of_isPrefix after hstart).2
    have hsame : d'.toBen = d.toBen := by
      rw [hdec] at hdec'
      simp only [Except.ok.injEq, Prod.mk.injEq, Option.some.injEq] at hdec'
      exact hdec'.1.symm
    refine ⟨hsame, ?_⟩
    rw [benEnc_eq, Option.some.injEq, ← hd', ← hsame]
    exact (benEncRec_toBen d').2

/-- A list with a negative number survives, and so does a canonical dictionary. -/
theorem ben_round_trip_examples :
    (∃ code, benEnc (.list [.int (-7), .str []]) = some code ∧
      benValidate ⟨buffer code [], code.length⟩ = some code.length ∧
      benDec ⟨buffer code [], code.length⟩ =
        .ok (some (.list [.int (-7), .str []]), code.length)) ∧
    ∃ t, benDec ⟨buffer (cstr "d1:ai5ee") [], 8⟩ = .ok (some t, 8) ∧
      (∃ d : BenDerivation, d.yield = (cstr "d1:ai5ee").take 8) ∧
      ∀ d : BenDerivation, d.yield = (cstr "d1:ai5ee").take 8 →
        d.toBen = t ∧
          (benEnc t = some ((cstr "d1:ai5ee").take 8) ↔ d.Canonical) := by
  refine ⟨ben_round_trip.1 _ [] ?_,
    ben_round_trip.2 (cstr "d1:ai5ee") [] 8 (Or.inl (by decide)) (by decide)⟩
  simp [Ben.Bounded, Ben.BoundedList, benIntMaxsize, benStrMaxsize]

end Torrentkino
