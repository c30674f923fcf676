import Torrentkino.Lib.Decimal

/-!
# Build configuration

The constants of `shr/config.h`, and the two builds of the daemon.  The
preprocessor symbols `IPV4` and `IPV6` select the address size and with it the
sizes of all compact lists; here the build is a parameter of everything that
depends on it.
-/

namespace Torrentkino

open Memory

/-- `BUF_SIZE` -/
def bufSize : Nat := 1024

/-- `BUF_OFF1` -/
def bufOff1 : Nat := 1023

/-- `SHA1_SIZE` -/
def sha1Size : Nat := 20

/-- `TID_SIZE`: length of the transaction ids this program creates. -/
def tidSize : Nat := 4

/-- `TID_SIZE_MAX`: longest transaction id that is echoed. -/
def tidSizeMax : Nat := 20

/-- `DNS_TTL` -/
def dnsTtl : Nat := 300

/-- The two builds `tk4` and `tk6`. -/
inductive Build where
  | ipv4
  | ipv6
deriving DecidableEq, Repr

namespace Build

/-- `IP_SIZE` -/
def ipSize : Build → Nat
  | ipv4 => 4
  | ipv6 => 16

/-- `IP_SIZE_META_PAIR`: address and port. -/
def ipSizeMetaPair : Build → Nat
  | ipv4 => 6
  | ipv6 => 18

/-- `IP_SIZE_META_TRIPLE`: node id, address and port. -/
def ipSizeMetaTriple : Build → Nat
  | ipv4 => 26
  | ipv6 => 38

theorem ipSizeMetaPair_eq (v : Build) :
    v.ipSizeMetaPair = v.ipSize + 2 := by
  cases v <;> rfl

theorem ipSizeMetaTriple_eq (v : Build) :
    v.ipSizeMetaTriple = sha1Size + v.ipSizeMetaPair := by
  cases v <;> rfl

end Build

/-- The bytes of a C string literal. -/
def cstr (s : String) : Bytes :=
  s.toList.map Char.toUInt8

end Torrentkino
