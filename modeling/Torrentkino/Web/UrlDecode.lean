import Torrentkino.Web.Http

/-!
# The escapes of a URL

`http_urlDecode` reads an escape with `sscanf("%2x")`.  That call skips white space, takes a
sign, and is content with one digit, while the cursor always moves on by two bytes.

* `escapes` are the places where the loop calls it, `PercentDecoding` is the text that a URL
  stands for.
* `scanHex_eq_none_iff`: what the call refuses.
* `urlDecodeLoop_eq_none_iff`: what the loop refuses.

**Result.** `decodesUrl_iff`: which URLs are decoded as the format has it.
-/

namespace Torrentkino

open CString Memory Decimal

/-! ## The format -/

/-- Two hexadecimal digits. -/
def HexPair : Bytes → Prop
  | a :: b :: _ => (hexDigit a).isSome = true ∧ (hexDigit b).isSome = true
  | _ => False

instance : DecidablePred HexPair
  | [] => inferInstanceAs (Decidable False)
  | [_] => inferInstanceAs (Decidable False)
  | _ :: _ :: _ => inferInstanceAs (Decidable (_ ∧ _))

/-- What stands behind each `%` that starts an escape. -/
def escapes : Bytes → List Bytes
  | [] => []
  | c :: src =>
      if c = '%'.toUInt8 then
        src :: match src with
          | _ :: _ :: rest => escapes rest
          | _ => []
      else escapes src

/-- The text that a URL stands for. -/
inductive PercentDecoding : Bytes → Bytes → Prop
  | nil : PercentDecoding [] []
  | plus {src dst : Bytes} (hrest : PercentDecoding src dst) :
      PercentDecoding ('+'.toUInt8 :: src) (' '.toUInt8 :: dst)
  | escape {a b d e : UInt8} {src dst : Bytes}
      (ha : hexDigit a = some d) (hb : hexDigit b = some e) (hrest : PercentDecoding src dst) :
      PercentDecoding ('%'.toUInt8 :: a :: b :: src) ((16 * d + e) :: dst)
  | other {c : UInt8} {src dst : Bytes}
      (hplus : c ≠ '+'.toUInt8) (hpercent : c ≠ '%'.toUInt8) (hrest : PercentDecoding src dst) :
      PercentDecoding (c :: src) (c :: dst)

/-- `http_urlDecode` refuses the URLs with a broken escape, and writes the text that the
others stand for. -/
structure DecodesUrl (src : Bytes) : Prop where
  refused : httpUrlDecode src = none ↔ ∃ t ∈ escapes src, ¬HexPair t
  decoded : ∀ dst, httpUrlDecode src = some dst ↔ PercentDecoding src dst

@[simp] theorem escapes_nil :
    escapes [] = [] := rfl

theorem escapes_cons_of_ne
    {c : UInt8} {src : Bytes} (hc : c ≠ '%'.toUInt8) :
    escapes (c :: src) = escapes src := by
  conv_lhs => unfold escapes
  exact if_neg hc

/-- An escape takes two bytes. -/
@[simp] theorem escapes_percent
    (src : Bytes) :
    escapes ('%'.toUInt8 :: src) = src :: escapes (src.drop 2) := by
  match src with
  | [] => rfl
  | [_] => rfl
  | _ :: _ :: _ => rfl

/-- Every URL without a broken escape stands for a text. -/
theorem exists_percentDecoding
    {src : Bytes} (h : ∀ t ∈ escapes src, HexPair t) :
    ∃ dst, PercentDecoding src dst := by
  generalize hn : src.length = n
  induction n using Nat.strong_induction_on generalizing src with
  | _ n ih =>
      cases src with
      | nil => exact ⟨[], .nil⟩
      | cons c src =>
          by_cases hplus : c = '+'.toUInt8
          · subst hplus
            rw [escapes_cons_of_ne (by decide)] at h
            obtain ⟨dst, hdst⟩ := ih src.length (by simp at hn; omega) h rfl
            exact ⟨_, .plus hdst⟩
          by_cases hpercent : c = '%'.toUInt8
          · subst hpercent
            rw [escapes_percent] at h
            obtain ⟨hpair, h⟩ := List.forall_mem_cons.mp h
            match src, hpair with
            | a :: b :: rest, ⟨ha, hb⟩ =>
                obtain ⟨dst, hdst⟩ := ih rest.length (by simp at hn; omega) h rfl
                obtain ⟨d, ha⟩ := Option.isSome_iff_exists.mp ha
                obtain ⟨e, hb⟩ := Option.isSome_iff_exists.mp hb
                exact ⟨_, .escape ha hb hdst⟩
          · rw [escapes_cons_of_ne hpercent] at h
            obtain ⟨dst, hdst⟩ := ih src.length (by simp at hn; omega) h rfl
            exact ⟨_, .other hplus hpercent hdst⟩

/-- A URL with a broken escape stands for no text. -/
theorem PercentDecoding.hexPair
    {src dst : Bytes} (h : PercentDecoding src dst) :
    ∀ t ∈ escapes src, HexPair t := by
  induction h with
  | nil => exact List.forall_mem_nil _
  | plus hrest ih => rwa [escapes_cons_of_ne (by decide)]
  | escape ha hb hrest ih =>
      rw [escapes_percent]
      refine List.forall_mem_cons.mpr ⟨?_, ih⟩
      exact ⟨Option.isSome_of_eq_some ha, Option.isSome_of_eq_some hb⟩
  | other hplus hpercent hrest ih => rwa [escapes_cons_of_ne hpercent]

/-! ## The call of `sscanf` -/

/-- `sscanf("%2x")` finds a character and no number: behind the white space there is neither
a digit nor a sign with a digit. -/
def NoNumber (t : Bytes) : Prop :=
  ∃ c s, t.dropWhile isSpace = c :: s ∧ hexDigit c = none ∧
    (c = '+'.toUInt8 ∨ c = '-'.toUInt8 → scanDigit s = none)

/-- The escapes that make `http_urlDecode` return zero. -/
def BrokenEscape (t : Bytes) : Prop :=
  t.length < 2 ∨ NoNumber t

theorem scanHex_eq_none_iff
    (hex : UInt8) {t : Bytes} :
    scanHex hex t = none ↔ NoNumber t := by
  unfold scanHex NoNumber
  cases t.dropWhile isSpace with
  | nil => simp
  | cons c s =>
      dsimp only
      by_cases hplus : c = '+'.toUInt8
      · subst hplus
        rw [if_pos rfl]
        constructor
        · intro h
          exact ⟨_, s, rfl, by decide, fun _ => h⟩
        · rintro ⟨_, _, heq, -, h⟩
          cases heq
          exact h (.inl rfl)
      by_cases hminus : c = '-'.toUInt8
      · subst hminus
        rw [if_neg (by decide), if_pos rfl, Option.map_eq_none_iff]
        constructor
        · intro h
          exact ⟨_, s, rfl, by decide, fun _ => h⟩
        · rintro ⟨_, _, heq, -, h⟩
          cases heq
          exact h (.inr rfl)
      · rw [if_neg hplus, if_neg hminus]
        constructor
        · intro h
          cases hc : hexDigit c with
          | none => exact ⟨c, s, rfl, hc, fun hsign => (hsign.elim hplus hminus).elim⟩
          | some d =>
              simp only [hc] at h
              split at h <;> cases h
        · rintro ⟨_, _, heq, hc, -⟩
          cases heq
          simp only [hc]

/-- A digit is neither white space nor a sign. -/
theorem hexDigit_eq_some
    {c d : UInt8} (h : hexDigit c = some d) :
    isSpace c = false ∧ c ≠ '+'.toUInt8 ∧ c ≠ '-'.toUInt8 := by
  have hall := forall_byte (P := fun c => (hexDigit c).isSome = true →
    isSpace c = false ∧ c ≠ '+'.toUInt8 ∧ c ≠ '-'.toUInt8) (by decide +kernel)
  exact hall c (Option.isSome_of_eq_some h)

/-- Two digits are read as they stand. -/
theorem scanHex_of_hexDigit
    {a b d e : UInt8} (ha : hexDigit a = some d) (hb : hexDigit b = some e)
    (hex : UInt8) (rest : Bytes) :
    scanHex hex (a :: b :: rest) = some (16 * d + e) := by
  obtain ⟨hspace, hplus, hminus⟩ := hexDigit_eq_some ha
  have hdrop : (a :: b :: rest).dropWhile isSpace = a :: b :: rest :=
    List.dropWhile_cons_of_neg (by simp [hspace])
  unfold scanHex
  simp only [hdrop, if_neg hplus, if_neg hminus, ha, scanDigit, hb]

theorem HexPair.not_brokenEscape
    {t : Bytes} (h : HexPair t) :
    ¬BrokenEscape t := by
  match t, h with
  | a :: b :: rest, ⟨ha, hb⟩ =>
      obtain ⟨d, ha⟩ := Option.isSome_iff_exists.mp ha
      obtain ⟨e, hb⟩ := Option.isSome_iff_exists.mp hb
      rintro (hlen | hnum)
      · simp at hlen
      · rw [← scanHex_eq_none_iff 0, scanHex_of_hexDigit ha hb] at hnum
        cases hnum

/-! ## The loop -/

variable {room : Nat} {src : Bytes}

theorem urlDecodeLoop_plus
    (hex : UInt8) :
    urlDecodeLoop (room + 1) hex ('+'.toUInt8 :: src) =
      (urlDecodeLoop room hex src).map (' '.toUInt8 :: ·) := by
  conv_lhs => unfold urlDecodeLoop
  exact if_pos rfl

theorem urlDecodeLoop_escape
    (hex a b : UInt8) :
    urlDecodeLoop (room + 1) hex ('%'.toUInt8 :: a :: b :: src) =
      (scanHex hex (a :: b :: src)).bind fun hex => (urlDecodeLoop room hex src).map (hex :: ·) := by
  rw [urlDecodeLoop, if_neg (by decide), if_pos rfl]
  cases scanHex hex (a :: b :: src) <;> rfl

theorem urlDecodeLoop_other
    {c : UInt8} (hplus : c ≠ '+'.toUInt8) (hpercent : c ≠ '%'.toUInt8) (hex : UInt8) :
    urlDecodeLoop (room + 1) hex (c :: src) = (urlDecodeLoop room hex src).map (c :: ·) := by
  conv_lhs => unfold urlDecodeLoop
  exact (if_neg hplus).trans (if_neg hpercent)

/-- With room for the whole URL the loop stops early exactly at a refused escape. -/
theorem urlDecodeLoop_eq_none_iff
    {hex : UInt8} (hroom : src.length ≤ room) :
    urlDecodeLoop room hex src = none ↔ ∃ t ∈ escapes src, BrokenEscape t := by
  induction room generalizing hex src with
  | zero =>
      obtain rfl := List.eq_nil_of_length_eq_zero (Nat.le_zero.mp hroom)
      simp [urlDecodeLoop]
  | succ room ih =>
      cases src with
      | nil => simp [urlDecodeLoop]
      | cons c src =>
          rw [List.length_cons, Nat.succ_le_succ_iff] at hroom
          by_cases hplus : c = '+'.toUInt8
          · subst hplus
            rw [urlDecodeLoop_plus, Option.map_eq_none_iff, ih hroom,
              escapes_cons_of_ne (by decide)]
          by_cases hpercent : c = '%'.toUInt8
          · subst hpercent
            rw [escapes_percent, List.exists_mem_cons_iff]
            match src with
            | [] => exact iff_of_true rfl (.inl (.inl (by decide)))
            | [a] => exact iff_of_true rfl (.inl (.inl (by simp)))
            | a :: b :: rest =>
                have hrest : rest.length ≤ room := by
                  simp only [List.length_cons] at hroom
                  omega
                have hshort : ¬(a :: b :: rest).length < 2 := by simp
                rw [urlDecodeLoop_escape, BrokenEscape, or_iff_right hshort,
                  ← scanHex_eq_none_iff hex]
                cases scanHex hex (a :: b :: rest) with
                | none => simp
                | some hex => simp [ih hrest]
          · rw [urlDecodeLoop_other hplus hpercent, Option.map_eq_none_iff, ih hroom,
              escapes_cons_of_ne hpercent]

/-- Where the URL stands for a text the loop writes it. -/
theorem PercentDecoding.urlDecodeLoop_eq
    {dst : Bytes} (h : PercentDecoding src dst) {hex : UInt8} (hroom : src.length ≤ room) :
    urlDecodeLoop room hex src = some dst := by
  induction h generalizing room hex with
  | nil => cases room <;> rfl
  | plus hrest ih =>
      cases room with
      | zero => cases hroom
      | succ room =>
          rw [urlDecodeLoop_plus, ih (Nat.le_of_succ_le_succ hroom)]
          rfl
  | escape ha hb hrest ih =>
      cases room with
      | zero => cases hroom
      | succ room =>
          simp only [List.length_cons] at hroom
          rw [urlDecodeLoop_escape, scanHex_of_hexDigit ha hb, Option.bind_some, ih (by omega)]
          rfl
  | other hplus hpercent hrest ih =>
      cases room with
      | zero => cases hroom
      | succ room =>
          rw [urlDecodeLoop_other hplus hpercent, ih (Nat.le_of_succ_le_succ hroom)]
          rfl

/-- A URL that is not empty has a text that is not empty. -/
theorem urlDecodeLoop_ne_nil
    {hex : UInt8} (hsrc : src ≠ []) :
    urlDecodeLoop (room + 1) hex src ≠ some [] := by
  intro h
  cases src with
  | nil => exact hsrc rfl
  | cons c src =>
      unfold urlDecodeLoop at h
      split at h
      · simp at h
      split at h
      · split at h
        · split at h
          · cases h
          · simp at h
        · cases h
      · simp at h

theorem httpUrlDecode_eq
    (hsrc : src ≠ []) :
    httpUrlDecode src = urlDecodeLoop bufSize 0 src := by
  have hne : urlDecodeLoop bufSize 0 src ≠ some [] := urlDecodeLoop_ne_nil hsrc
  unfold httpUrlDecode
  rcases h : urlDecodeLoop bufSize 0 src with _ | _ | ⟨c, dst⟩
  · rfl
  · exact (hne h).elim
  · rfl

/-! ## When the URL is decoded -/

/-- An escape with one digit is not refused. -/
theorem not_decodesUrl_one_digit :
    ¬DecodesUrl (cstr "%4g") := by
  intro h
  have hbroken : ∃ t ∈ escapes (cstr "%4g"), ¬HexPair t := by decide +kernel
  have hnone := h.refused.mpr hbroken
  revert hnone
  decide +kernel

/-- The URL is decoded as the format has it when no escape is broken, or when `sscanf` or the
end of the URL stops the function at one. -/
theorem decodesUrl_iff
    (hpos : 1 ≤ src.length) (hlen : src.length ≤ 1023) :
    DecodesUrl src ↔ (∀ t ∈ escapes src, HexPair t) ∨ ∃ t ∈ escapes src, BrokenEscape t := by
  have heq := httpUrlDecode_eq (List.ne_nil_of_length_pos hpos)
  have hroom : src.length ≤ bufSize := Nat.le_succ_of_le hlen
  have hnone : httpUrlDecode src = none ↔ ∃ t ∈ escapes src, BrokenEscape t := by
    rw [heq, urlDecodeLoop_eq_none_iff hroom]
  constructor
  · intro h
    by_cases hbroken : ∃ t ∈ escapes src, ¬HexPair t
    · exact .inr (hnone.mp (h.refused.mpr hbroken))
    · left
      intro t ht
      by_contra hpair
      exact hbroken ⟨t, ht, hpair⟩
  · rintro (hpairs | ⟨t, ht, hbroken⟩)
    · obtain ⟨dst, hdst⟩ := exists_percentDecoding hpairs
      have hdecoded : httpUrlDecode src = some dst := by
        rw [heq, hdst.urlDecodeLoop_eq hroom]
      refine ⟨?_, fun dst' => ⟨fun h => ?_, fun h => ?_⟩⟩
      · rw [hdecoded]
        refine iff_of_false (by simp) ?_
        rintro ⟨t, ht, hpair⟩
        exact hpair (hpairs t ht)
      · rw [hdecoded] at h
        cases h
        exact hdst
      · rw [heq, h.urlDecodeLoop_eq hroom]
    · have hstops := hnone.mpr ⟨t, ht, hbroken⟩
      have hpair : ¬HexPair t := fun h => h.not_brokenEscape hbroken
      refine ⟨iff_of_true hstops ⟨t, ht, hpair⟩, fun dst => ?_⟩
      rw [hstops]
      exact iff_of_false (by simp) fun h => hpair (h.hexPair t ht)

theorem decodesUrl_iff_space :
    DecodesUrl (cstr "a%20b") ↔
      (∀ t ∈ escapes (cstr "a%20b"), HexPair t) ∨ ∃ t ∈ escapes (cstr "a%20b"), BrokenEscape t :=
  decodesUrl_iff (by decide +kernel) (by decide +kernel)

end Torrentkino
