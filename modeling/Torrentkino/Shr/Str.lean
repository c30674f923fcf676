import Torrentkino.Lib.BigEndian
import Torrentkino.Lib.CString
import Torrentkino.Shr.Config

/-!
# `shr/str.c`

The checks on strings that the programs make, and the dates of the web server.
`web/str.c` is a copy of the same file.
-/

namespace Torrentkino

open Memory CString Decimal

/-- The characters `str_valid_hostname` lets pass. -/
def hostnameChar (c : UInt8) : Bool :=
  ('0'.toUInt8 ≤ c && c ≤ '9'.toUInt8) || ('A'.toUInt8 ≤ c && c ≤ 'Z'.toUInt8) ||
    ('a'.toUInt8 ≤ c && c ≤ 'z'.toUInt8) || c = '-'.toUInt8 || c = '_'.toUInt8 ||
    c = '.'.toUInt8

/-- `str_valid_hostname` -/
def strValidHostname (hostname : Bytes) : Bool :=
  hostname.all hostnameChar

/-- The loop of `str_valid_tld`: what stands behind the last dot. -/
def tldLoop : Nat → Bytes → Bytes
  | 0, hostname => hostname
  | fuel + 1, hostname =>
      match cutAt '.'.toUInt8 hostname with
      | none => hostname
      | some (_, hostname) => tldLoop fuel hostname

/-- `str_valid_tld` -/
def strValidTld (hostname : Bytes) (hostsize : Nat) (domain : Bytes) : Bool :=
  if hostsize < 5 then false else tldLoop hostname.length hostname = domain

/-- `str_isValidFilename`: the same characters. -/
def strIsValidFilename (string : Bytes) : Bool :=
  string.all hostnameChar

/-- `str_sha1_compare`: the sign of the comparison of two distances to the
target. -/
def strSha1Compare : Bytes → Bytes → Bytes → Int
  | c₁ :: id₁, c₂ :: id₂, t :: target =>
      if c₁ = c₂ then strSha1Compare id₁ id₂ target
      else if c₁ ^^^ t < c₂ ^^^ t then -1
      else 1
  | _, _, _ => 0

/-- `str_isNumber`, which the empty string passes. -/
def strIsNumber (string : Bytes) : Bool :=
  string.all isDigit

/-- `str_count` -/
def strCount (buffer search : Bytes) : Nat :=
  (pieces search (buffer.length + 1) buffer).length

/-- The number of bytes that have to follow a first byte.  `char` is signed, as
on amd64. -/
def utf8Followers (c : UInt8) : Option Nat :=
  if c.toInt8.toInt < 0x80 then some 0
  else if c &&& 0xE0 = 0xC0 then some 1
  else if c &&& 0xF0 = 0xE0 then some 2
  else if c &&& 0xF8 = 0xF0 then some 3
  else if c &&& 0xFC = 0xF8 then some 4
  else if c &&& 0xFE = 0xFC then some 5
  else none

/-- The two loops of `str_isValidUTF8`; the counter is the number of iterations
that the inner one still has to make. -/
def utf8Loop : Nat → Bytes → Bool
  | 0, [] => true
  | _ + 1, [] => false
  | 0, c :: s =>
      match utf8Followers c with
      | none => false
      | some n => utf8Loop n s
  | n + 1, c :: s => c &&& 0xC0 = 0x80 && utf8Loop n s

/-- `str_isValidUTF8`.  The length of the string is an `unsigned int`. -/
def strIsValidUTF8 (string : Bytes) : Bool :=
  utf8Loop 0 (string.take (string.length % 2 ^ 32))

/-! ## Dates -/

/-- The text for a date that `gmtime_r` has no answer for. -/
def gmtFallback : Bytes :=
  cstr "Thu, 01 Jan 1970 00:00:00 GMT"

/-- `%a` -/
def dayNames : List String :=
  ["Sun", "Mon", "Tue", "Wed", "Thu", "Fri", "Sat"]

/-- `%b` -/
def monthNames : List String :=
  ["Jan", "Feb", "Mar", "Apr", "May", "Jun", "Jul", "Aug", "Sep", "Oct", "Nov", "Dec"]

/-- `%d`, `%H`, `%M` and `%S` -/
def twoDigits (n : Nat) : Bytes :=
  [digit (n / 10), digit (n % 10)]

/-- The date of `gmtime_r`. -/
structure Civil where
  year : Int
  /-- January is zero. -/
  month : Nat
  day : Nat
deriving DecidableEq, Repr

/-- The Gregorian date, for the number of days since the start of 1970.  Years
are counted from March on, in cycles of 400 years. -/
def civilOfDays (days : Int) : Civil :=
  let z := days + 719468
  let era := z.fdiv 146097
  let dayOfEra := (z.fmod 146097).toNat
  let yearOfEra :=
    (dayOfEra - dayOfEra / 1460 + dayOfEra / 36524 - dayOfEra / 146096) / 365
  let dayOfYear := dayOfEra - (365 * yearOfEra + yearOfEra / 4 - yearOfEra / 100)
  let fromMarch := (5 * dayOfYear + 2) / 153
  let month := (fromMarch + 2) % 12
  { year := yearOfEra + era * 400 + if month < 2 then 1 else 0
    month := month
    day := dayOfYear - (153 * fromMarch + 2) / 5 + 1 }

/-- `str_gmttime`, with the conversions of `strftime` in the C locale. -/
def strGmttime (timestamp : Int) : Bytes :=
  let days := timestamp.fdiv 86400
  let seconds := (timestamp.fmod 86400).toNat
  let date := civilOfDays days
  if date.year - 1900 < -2 ^ 31 ∨ 2 ^ 31 ≤ date.year - 1900 then gmtFallback
  else
    cstr (dayNames.getD ((days + 4).fmod 7).toNat "") ++ cstr ", " ++
      twoDigits date.day ++ cstr " " ++ cstr (monthNames.getD date.month "") ++ cstr " " ++
      decimalInt date.year ++ cstr " " ++ twoDigits (seconds / 3600) ++ cstr ":" ++
      twoDigits (seconds / 60 % 60) ++ cstr ":" ++ twoDigits (seconds % 60) ++ cstr " GMT"

/-- `str_GMTtime`, at the time `now`. -/
def strGMTtime (now : Int) : Bytes :=
  if now > 0 then strGmttime now else gmtFallback

-- The date from the comment in the source.
example : strGmttime 1297369539 = cstr "Thu, 10 Feb 2011 20:25:39 GMT" := by decide +kernel

end Torrentkino
