import Torrentkino.P2p.Ben

/-!
# Bencode validator and decoder

The two recursive descent parsers of `p2p/ben.c`.

`ben_validate` checks a buffer before anything else looks at it.  It compares
its cursor with the size of the buffer, so a value is `none` for `return 0` and
the cursor for `return 1`.

`ben_dec` has no bounds checks at all.  Its model therefore reports what the C
code would do wrong: `overread` when a byte outside the buffer is read,
`bufOverflow` when more digits are copied than the local `buf` holds, `fail`
when a constructor exits the process, and `hang` when a scanner meets a byte
that neither advances nor stops it.  An `ok` result is a run with none of these.

Loops over single bytes run at most once for each byte left in the buffer, and
this number is their recursion argument.  The nesting of values is bounded by
`fuel`; every value has at least one byte, so the size of the buffer is enough.
-/

namespace Torrentkino

open Memory Decimal

/-- `RAW`, without its cursor. -/
structure Raw where
  code : Mem
  size : Nat

/-- The checks on the result of `strtol` that both validators make: no range
error, at least one digit, and nothing behind the digits. -/
def strtolStrict (buf : Bytes) : Option Int :=
  let r := strtol buf
  if r.errno then none
  else if r.rest = buf then none
  else if r.rest ≠ [] then none
  else some r.val

/-! ## Validator -/

section Validator

variable (raw : Raw)

/-- The loop of `ben_validate_s`: `none` for `return 0` from inside the loop,
otherwise the cursor behind it. -/
def benValidateSLoop (start : Nat) : Nat → Nat → Nat → Option Nat
  | 0, p, _ => some p
  | left + 1, p, i =>
      if isDigit (raw.code p) then
        benValidateSLoop start left (p + 1) (i + 1)
      else if raw.code p = ':'.toUInt8 then
        -- String length limitation
        if i ≤ 0 ∨ i > benStrMaxlen then none
        else
          match strtolStrict (copy raw.code start i) with
          | none => none
          | some l =>
              if l < 0 ∨ l > benStrMaxsize then none
              else some (p + (l.toNat + 1))
      else none

/-- `ben_validate_s` -/
def benValidateS (p : Nat) : Option Nat :=
  if p ≥ raw.size then none
  else
    match benValidateSLoop raw p (raw.size - p) p 0 with
    | none => none
    | some q => if q > raw.size then none else some q

/-- The loop of `ben_validate_i`. -/
def benValidateILoop (start : Nat) : Nat → Nat → Nat → Option Nat
  | 0, p, _ => some p
  | left + 1, p, i =>
      if isDigit (raw.code p) then
        benValidateILoop start left (p + 1) (i + 1)
      else if raw.code p = 'e'.toUInt8 then
        if i ≤ 0 ∨ i > benIntMaxlen then none
        else
          match strtolStrict (copy raw.code start i) with
          | none => none
          | some result =>
              if result < 0 ∨ result > benIntMaxsize then none
              else some (p + 1)
      else none

/-- `ben_validate_i` behind the optional sign. -/
def benValidateIDigits (start : Nat) : Option Nat :=
  match benValidateILoop raw start (raw.size - start) start 0 with
  | none => none
  | some q => if q > raw.size then none else some q

/-- `ben_validate_i` -/
def benValidateI (p : Nat) : Option Nat :=
  if p + 1 ≥ raw.size then none
  else if raw.code (p + 1) = '-'.toUInt8 then
    if p + 2 ≥ raw.size then none else benValidateIDigits raw (p + 2)
  else benValidateIDigits raw (p + 1)

mutual

/-- `ben_validate_r` -/
def benValidateR : Nat → Nat → Option Nat
  | 0, _ => none
  | fuel + 1, p =>
      if raw.size < 1 then none
      else if p ≥ raw.size then none
      else if raw.code p = 'd'.toUInt8 then
        -- ben_validate_d
        if p + 1 ≥ raw.size then none else benValidateDLoop fuel (p + 1)
      else if raw.code p = 'l'.toUInt8 then
        -- ben_validate_l
        if p + 1 ≥ raw.size then none else benValidateLLoop fuel (p + 1)
      else if raw.code p = 'i'.toUInt8 then benValidateI raw p
      else if isDigit (raw.code p) then benValidateS raw p
      else none

/-- The loop of `ben_validate_d`. -/
def benValidateDLoop : Nat → Nat → Option Nat
  | 0, _ => none
  | fuel + 1, p =>
      if raw.code p ≠ 'e'.toUInt8 then
        match benValidateS raw p with
        | none => none
        | some p₁ =>
            match benValidateR fuel p₁ with
            | none => none
            | some p₂ =>
                if p₂ ≥ raw.size then none else benValidateDLoop fuel p₂
      else if p + 1 > raw.size then none
      else some (p + 1)

/-- The loop of `ben_validate_l`. -/
def benValidateLLoop : Nat → Nat → Option Nat
  | 0, _ => none
  | fuel + 1, p =>
      if raw.code p ≠ 'e'.toUInt8 then
        match benValidateR fuel p with
        | none => none
        | some p₁ =>
            if p₁ ≥ raw.size then none else benValidateLLoop fuel p₁
      else if p + 1 > raw.size then none
      else some (p + 1)

end

/-- `ben_validate` -/
def benValidate : Option Nat :=
  benValidateR raw raw.size 0

end Validator

/-! ## Decoder -/

/-- What can go wrong while decoding. -/
inductive BenFault where
  | overread
  | bufOverflow
  | fail (text : String)
  | hang
  | fuel
deriving DecidableEq, Repr

section Decoder

variable (raw : Raw)

/-- `*raw->p` -/
def readByte (p : Nat) : Except BenFault UInt8 :=
  if p < raw.size then .ok (raw.code p) else .error .overread

/-- `ben_str` on `len` bytes at the cursor. -/
def benStr (p : Nat) (len : Int) : Except BenFault Ben :=
  if len < 0 then .error (.fail "ben_str() with zero size")
  else if p + len.toNat > raw.size then .error .overread
  else .ok (.str (copy raw.code p len.toNat))

/-- `memcpy( buf, start, i ); buf[i] = '\0'; strtol( buf, NULL, 10 )` -/
def strtolBuf (start i : Nat) : Except BenFault Int :=
  if i ≥ bufSize then .error .bufOverflow
  else .ok (strtol (copy raw.code start i)).val

/-- The loop of `ben_dec_s`. -/
def benDecSLoop (start : Nat) : Nat → Nat → Nat → Except BenFault (Ben × Nat)
  | 0, _, _ => .error .overread
  | left + 1, p, i =>
      if isDigit (raw.code p) then
        benDecSLoop start left (p + 1) (i + 1)
      else if raw.code p = ':'.toUInt8 then do
        let l ← strtolBuf raw start i
        let node ← benStr raw (p + 1) l
        return (node, p + 1 + l.toNat)
      else .error .hang

/-- `ben_dec_s` -/
def benDecS (p : Nat) : Except BenFault (Ben × Nat) :=
  benDecSLoop raw p (raw.size - p) p 0

/-- The loop of `ben_dec_i`. -/
def benDecILoop (start : Nat) : Nat → Nat → Nat → Except BenFault (Int × Nat)
  | 0, _, _ => .error .overread
  | left + 1, p, i =>
      if isDigit (raw.code p) then
        benDecILoop start left (p + 1) (i + 1)
      else if raw.code p = 'e'.toUInt8 then do
        let result ← strtolBuf raw start i
        return (result, p + 1)
      else .error .hang

/-- `ben_dec_i` behind the optional sign. -/
def benDecIDigits (sign : Int) (start : Nat) : Except BenFault (Ben × Nat) := do
  let (result, q) ← benDecILoop raw start (raw.size - start) start 0
  return (.int (sign * result), q)

/-- `ben_dec_i` -/
def benDecI (p : Nat) : Except BenFault (Ben × Nat) := do
  let c ← readByte raw (p + 1)
  if c = '-'.toUInt8 then benDecIDigits raw (-1) (p + 2)
  else benDecIDigits raw 1 (p + 1)

mutual

/-- `ben_dec_r`: the node may be `NULL`. -/
def benDecR : Nat → Nat → Except BenFault (Option Ben × Nat)
  | 0, _ => .error .fuel
  | fuel + 1, p => do
      let c ← readByte raw p
      if c = 'd'.toUInt8 then
        -- ben_dec_d
        let (node, q) ← benDecDLoop fuel (p + 1) (.dict [])
        return (some node, q)
      else if c = 'l'.toUInt8 then
        -- ben_dec_l
        let (node, q) ← benDecLLoop fuel (p + 1) (.list [])
        return (some node, q)
      else if c = 'i'.toUInt8 then
        let (node, q) ← benDecI raw p
        return (some node, q)
      else if isDigit c then
        let (node, q) ← benDecS raw p
        return (some node, q)
      else
        return (none, p)

/-- The loop of `ben_dec_d`. -/
def benDecDLoop : Nat → Nat → Ben → Except BenFault (Ben × Nat)
  | 0, _, _ => .error .fuel
  | fuel + 1, p, dict => do
      let c ← readByte raw p
      if c ≠ 'e'.toUInt8 then
        let (key, p₁) ← benDecS raw p
        let (val, p₂) ← benDecR fuel p₁
        let dict' ← (benDict (some dict) (some key) val).mapError .fail
        benDecDLoop fuel p₂ dict'
      else
        return (dict, p + 1)

/-- The loop of `ben_dec_l`. -/
def benDecLLoop : Nat → Nat → Ben → Except BenFault (Ben × Nat)
  | 0, _, _ => .error .fuel
  | fuel + 1, p, list => do
      let c ← readByte raw p
      if c ≠ 'e'.toUInt8 then
        let (val, p₁) ← benDecR fuel p
        let list' ← (benList (some list) val).mapError .fail
        benDecLLoop fuel p₁ list'
      else
        return (list, p + 1)

end

/-- `ben_dec`: the node and the cursor it leaves behind. -/
def benDec : Except BenFault (Option Ben × Nat) :=
  benDecR raw raw.size 0

end Decoder

end Torrentkino
