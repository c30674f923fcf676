import Torrentkino.P2p.NodeUdp
import Torrentkino.Shr.Str

/-!
# The distance between identifiers

The distance of two identifiers is their exclusive or, read as a number of 160
bits.  `str_sha1_compare` walks over the bytes and stops at the first one where
the two identifiers differ.

**Result.** `strSha1Compare_neg_iff`: it compares the distances to the target.
-/

namespace Torrentkino

open Memory BigEndian

/-- The exclusive or of two byte strings. -/
def xorBytes (a b : Bytes) : Bytes :=
  List.zipWith (· ^^^ ·) a b

/-- The distance of two identifiers. -/
def NodeId.distance (a b : NodeId) : Nat :=
  beNat (xorBytes a.bytes b.bytes)

theorem length_xorBytes {a b : Bytes} (h : a.length = b.length) :
    (xorBytes a b).length = b.length := by
  simp [xorBytes, h]

theorem xorBytes_inj
    {a b t : Bytes} (ha : a.length = t.length) (hb : b.length = t.length)
    (h : xorBytes a t = xorBytes b t) :
    a = b := by
  induction t generalizing a b with
  | nil =>
      rw [List.length_eq_zero_iff.mp ha, List.length_eq_zero_iff.mp hb]
  | cons e t ih =>
      cases a with
      | nil =>
          simp at ha
      | cons c a =>
          cases b with
          | nil =>
              simp at hb
          | cons d b =>
              obtain ⟨hhead, htail⟩ := List.cons.inj h
              have hcd : c = d := UInt8.xor_left_inj e |>.mp hhead
              rw [hcd, ih (by simpa using ha) (by simpa using hb) htail]

/-- The comparison byte by byte is the one of the numbers. -/
theorem strSha1Compare_lt_zero_iff
    {a b t : Bytes} (ha : a.length = t.length) (hb : b.length = t.length) :
    strSha1Compare a b t < 0 ↔ beNat (xorBytes a t) < beNat (xorBytes b t) := by
  induction t generalizing a b with
  | nil =>
      rw [List.length_eq_zero_iff.mp ha, List.length_eq_zero_iff.mp hb]
      simp [strSha1Compare]
  | cons e t ih =>
      cases a with
      | nil =>
          simp at ha
      | cons c a =>
          cases b with
          | nil =>
              simp at hb
          | cons d b =>
              have ha' : a.length = t.length := by simpa using ha
              have hb' : b.length = t.length := by simpa using hb
              have hlen : (xorBytes a t).length = (xorBytes b t).length :=
                (length_xorBytes ha').trans (length_xorBytes hb').symm
              change strSha1Compare (c :: a) (d :: b) (e :: t) < 0 ↔
                beNat ((c ^^^ e) :: xorBytes a t) < beNat ((d ^^^ e) :: xorBytes b t)
              rw [strSha1Compare]
              rcases eq_or_ne c d with rfl | hne
              · rw [if_pos rfl, ih ha' hb', beNat, beNat, hlen]
                omega
              · rw [if_neg hne]
                rcases byte_trichotomy (c ^^^ e) (d ^^^ e) with hlt | heq | hgt
                · rw [if_pos hlt]
                  exact iff_of_true (by decide) (beNat_cons_lt hlen hlt)
                · exact absurd (UInt8.xor_left_inj e |>.mp heq) hne
                · rw [if_neg (UInt8.lt_asymm hgt)]
                  exact iff_of_false (by decide) (Nat.lt_asymm (beNat_cons_lt hlen.symm hgt))

namespace NodeId

/-- `str_sha1_compare` orders identifiers by their distance to the target. -/
theorem strSha1Compare_neg_iff (a b t : NodeId) :
    strSha1Compare a.bytes b.bytes t.bytes < 0 ↔ a.distance t < b.distance t :=
  strSha1Compare_lt_zero_iff (a.length_eq.trans t.length_eq.symm)
    (b.length_eq.trans t.length_eq.symm)

/-- No two identifiers have the same distance to a target. -/
theorem distance_inj {a b t : NodeId} (h : a.distance t = b.distance t) : a = b := by
  have ha := a.length_eq.trans t.length_eq.symm
  have hb := b.length_eq.trans t.length_eq.symm
  refine bytes_inj (xorBytes_inj ha hb (beNat_inj ?_ h))
  rw [length_xorBytes ha, length_xorBytes hb]

end NodeId
end Torrentkino
