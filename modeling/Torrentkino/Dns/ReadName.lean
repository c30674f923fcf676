import Torrentkino.Dns.Client
import Torrentkino.Lib.Chase
import Torrentkino.Lib.Simulation

/-!
# `ReadName` on any response

The client reads the name in front of an answer although it does not use it.  `ReadName`
copies bytes until it finds a zero byte, and goes where the pointers among them lead.
Afterwards it steps through its copy from length byte to length byte.

* `NameAt` and `HeadAt` are the bytes that it finds: all of them, and those in front of the
  first pointer.
* `Occupies` is the size of a name at its place, from length byte to length byte.

**Result.** `name_read_iff`: the buffers with which all goes well.
-/

namespace Torrentkino

open Memory CString DnsWire

/-- Where a pointer leads to. -/
def pointerOffset (mem : Mem) (p : Nat) : Nat :=
  (mem p).toNat * 256 + (mem (p + 1)).toNat - 49152

/-- The bytes that are found from a place on until a zero byte, through all pointers. -/
inductive NameAt (mem : Mem) : Nat → Bytes → Prop
  | done {p : Nat} (hp : p < clientBufSize) (hc : mem p = 0) : NameAt mem p []
  | byte {p : Nat} {w : Bytes} (hp : p < clientBufSize) (hc : mem p ≠ 0)
      (hlt : (mem p).toNat < 192) (hw : NameAt mem (p + 1) w) : NameAt mem p (mem p :: w)
  | pointer {p : Nat} {w : Bytes} (hp : p + 1 < clientBufSize) (hge : 192 ≤ (mem p).toNat)
      (hw : NameAt mem (pointerOffset mem p) w) : NameAt mem p w

/-- The bytes that are found until a zero byte or a pointer, and the size of that. -/
inductive HeadAt (mem : Mem) : Nat → Bytes → Nat → Prop
  | done {p : Nat} (hp : p < clientBufSize) (hc : mem p = 0) : HeadAt mem p [] 1
  | pointer {p : Nat} (hp : p + 1 < clientBufSize) (hge : 192 ≤ (mem p).toNat) :
      HeadAt mem p [] 2
  | byte {p n : Nat} {u : Bytes} (hp : p < clientBufSize) (hc : mem p ≠ 0)
      (hlt : (mem p).toNat < 192) (hu : HeadAt mem (p + 1) u n) : HeadAt mem p (mem p :: u) n

/-- The name at a place occupies so many bytes: its labels, and the root or a pointer. -/
inductive Occupies (mem : Mem) : Nat → Nat → Prop
  | root {p : Nat} (hp : p < clientBufSize) (hc : mem p = 0) : Occupies mem p 1
  | pointer {p : Nat} (hp : p + 1 < clientBufSize) (hge : 192 ≤ (mem p).toNat) :
      Occupies mem p 2
  | label {p n : Nat} (hp : p < clientBufSize) (hc : mem p ≠ 0) (hlt : (mem p).toNat < 192)
      (hrest : Occupies mem (p + 1 + (mem p).toNat) n) :
      Occupies mem p (1 + (mem p).toNat + n)

/-- Every label ends inside the 256 bytes, where `i` is the place of the first byte and
`k` bytes are left of a label. -/
def LabelsFit : Nat → Nat → Bytes → Prop
  | _, _, [] => True
  | 0, i, c :: w => i + c.toNat < 256 ∧ LabelsFit c.toNat (i + 1) w
  | k + 1, i, _ :: w => LabelsFit k (i + 1) w

/-- The number of bytes that the last label has behind the given ones, of which the first
`k` belong to a label. -/
def missing : Nat → Bytes → Nat
  | k, [] => k
  | 0, c :: u => missing c.toNat u
  | k + 1, _ :: u => missing k u

/-- The labels end where the zero byte or the pointer stands. -/
def WholeLabels (mem : Mem) (p : Nat) (u : Bytes) (n : Nat) : Prop :=
  missing 0 u = 0 ∨
    -- the last label ends with the first byte of the pointer, and its second is the root
    missing 0 u = 1 ∧ n = 2 ∧ mem (p + u.length + 1) = 0

/-- `ReadName` returns, has kept to its arrays, and has counted the bytes of the name. -/
def ReadsName (mem : Mem) (p : Nat) : Prop :=
  ∃ name count, readName mem p = .ok (name, count) ∧ Occupies mem p count

/-! ## The first loop -/

/-- The next place of the first loop. -/
def nextReader (mem : Mem) (p : Nat) : Nat :=
  if 192 ≤ (mem p).toNat then pointerOffset mem p else p + 1

theorem NameAt.endsIn {mem : Mem} {p : Nat} {w : Bytes} (h : NameAt mem p w) :
    Chase.EndsIn (nextReader mem) (fun p => mem p = 0) (Finset.range clientBufSize) p := by
  induction h with
  | done hp hc =>
      exact .stop (Finset.mem_range.mpr hp) hc
  | byte hp hc hlt hw ih =>
      refine .next (Finset.mem_range.mpr hp) ?_
      rwa [nextReader, if_neg (Nat.not_le.mpr hlt)]
  | pointer hp hge hw ih =>
      refine .next (Finset.mem_range.mpr (Nat.lt_of_succ_lt hp)) ?_
      rwa [nextReader, if_pos hge]

theorem NameAt.lt {mem : Mem} {p : Nat} {w : Bytes} (h : NameAt mem p w) : p < clientBufSize := by
  cases h with
  | done hp hc =>
      exact hp
  | byte hp hc hlt hw =>
      exact hp
  | pointer hp hge hw =>
      exact Nat.lt_of_succ_lt hp

theorem ne_zero_of_pointer {mem : Mem} {p : Nat} (hge : 192 ≤ (mem p).toNat) : mem p ≠ 0 := by
  intro hzero
  rw [hzero] at hge
  exact absurd hge (by decide)

theorem NameAt.zero_not_mem {mem : Mem} {p : Nat} {w : Bytes} (h : NameAt mem p w) :
    (0 : UInt8) ∉ w := by
  induction h with
  | done hp hc =>
      exact List.not_mem_nil
  | byte hp hc hlt hw ih =>
      exact List.not_mem_cons_of_ne_of_not_mem hc.symm ih
  | pointer hp hge hw ih =>
      exact ih

/-- The first loop comes to its end in as many rounds as the chase has steps. -/
theorem exists_readNameLoop
    {mem : Mem} {n fuel p : Nat} {w name : Bytes} (h : NameAt mem p w)
    (hend : mem ((nextReader mem)^[n] p) = 0) (hfuel : n < fuel)
    (hlen : name.length + w.length ≤ 256) (jumped : Bool) (count : Nat) :
    ∃ r, readNameLoop mem fuel p jumped count name = .ok r := by
  induction n generalizing fuel p w name jumped count with
  | zero =>
      obtain ⟨fuel, rfl⟩ := Nat.exists_eq_succ_of_ne_zero (Nat.ne_of_gt hfuel)
      rw [Function.iterate_zero_apply] at hend
      rw [readNameLoop, if_neg (Nat.not_le.mpr h.lt), if_pos hend]
      exact ⟨_, rfl⟩
  | succ n ih =>
      obtain ⟨fuel, rfl⟩ := Nat.exists_eq_succ_of_ne_zero (Nat.ne_of_gt (Nat.zero_lt_of_lt hfuel))
      rw [readNameLoop]
      rw [Function.iterate_succ_apply] at hend
      cases h with
      | done hp hc =>
          rw [if_neg (Nat.not_le.mpr hp), if_pos hc]
          exact ⟨_, rfl⟩
      | @byte _ w hp hc hlt hw =>
          rw [List.length_cons] at hlen
          rw [if_neg (Nat.not_le.mpr hp), if_neg hc, if_neg (Nat.not_le.mpr hlt),
            if_pos (by omega)]
          rw [nextReader, if_neg (Nat.not_le.mpr hlt)] at hend
          refine ih hw hend (Nat.lt_of_succ_lt_succ hfuel) ?_ _ _
          rw [List.length_append, List.length_singleton]
          omega
      | pointer hp hge hw =>
          rw [if_neg (by omega), if_neg (ne_zero_of_pointer hge), if_pos hge, if_neg (Nat.not_le.mpr hp)]
          rw [nextReader, if_pos hge] at hend
          exact ih hw hend (Nat.lt_of_succ_lt_succ hfuel) hlen _ _

/-- The rounds of `readName` are enough for every name that fits. -/
theorem readNameLoop_of_nameAt
    {mem : Mem} {p : Nat} {w : Bytes} (h : NameAt mem p w) (hlen : w.length ≤ 256) :
    ∃ r, readNameLoop mem readNameFuel p false 1 [] = .ok r := by
  obtain ⟨n, hn, hend⟩ := h.endsIn.exists_lt_card
  rw [Finset.card_range] at hn
  refine exists_readNameLoop h hend ?_ (by rwa [List.length_nil, Nat.zero_add]) false 1
  exact Nat.lt_trans hn (by decide)

/-- A round of the first loop, when the loop returns. -/
theorem readNameLoop_cases
    {mem : Mem} {fuel p count : Nat} {jumped : Bool} {name : Bytes} {r : Bytes × Bool × Nat}
    (h : readNameLoop mem (fuel + 1) p jumped count name = .ok r) :
    (p < clientBufSize ∧ mem p = 0 ∧ r = (name, jumped, count)) ∨
      (p + 1 < clientBufSize ∧ 192 ≤ (mem p).toNat ∧
        readNameLoop mem fuel (pointerOffset mem p) true count name = .ok r) ∨
      (p < clientBufSize ∧ mem p ≠ 0 ∧ (mem p).toNat < 192 ∧
        readNameLoop mem fuel (p + 1) jumped (if jumped then count else count + 1)
          (name ++ [mem p]) = .ok r) := by
  rw [readNameLoop] at h
  split at h
  · cases h
  rename_i hp
  split at h
  · rename_i hc
    cases h
    exact .inl ⟨Nat.not_le.mp hp, hc, rfl⟩
  rename_i hc
  split at h
  · rename_i hge
    split at h
    · cases h
    exact .inr (.inl ⟨Nat.not_le.mp ‹_›, hge, h⟩)
  · rename_i hlt
    split at h
    · exact .inr (.inr ⟨Nat.not_le.mp hp, hc, Nat.not_le.mp hlt, h⟩)
    · cases h

/-- What the first loop has copied when it returns. -/
theorem nameAt_of_readNameLoop
    {mem : Mem} {fuel p count : Nat} {jumped : Bool} {name : Bytes} {r : Bytes × Bool × Nat}
    (h : readNameLoop mem fuel p jumped count name = .ok r) :
    ∃ w, NameAt mem p w ∧ r.1 = name ++ w := by
  induction fuel generalizing p jumped count name with
  | zero =>
      cases h
  | succ fuel ih =>
      rcases readNameLoop_cases h with ⟨hp, hc, rfl⟩ | ⟨hp, hge, h⟩ | ⟨hp, hc, hlt, h⟩
      · exact ⟨[], .done hp hc, (List.append_nil name).symm⟩
      · obtain ⟨w, hw, hr⟩ := ih h
        exact ⟨w, .pointer hp hge hw, hr⟩
      · obtain ⟨w, hw, hr⟩ := ih h
        refine ⟨mem p :: w, .byte hp hc hlt hw, ?_⟩
        rw [hr, List.append_assoc, List.singleton_append]

/-- The count does not change behind a pointer. -/
theorem readNameLoop_jumped
    {mem : Mem} {fuel p count : Nat} {name : Bytes} {r : Bytes × Bool × Nat}
    (h : readNameLoop mem fuel p true count name = .ok r) : r.2 = (true, count) := by
  induction fuel generalizing p name with
  | zero =>
      cases h
  | succ fuel ih =>
      rcases readNameLoop_cases h with ⟨-, -, rfl⟩ | ⟨-, -, h⟩ | ⟨-, -, -, h⟩
      · rfl
      · exact ih h
      · exact ih h

/-- What `ReadName` makes of the count. -/
def finalCount (r : Bytes × Bool × Nat) : Nat :=
  if r.2.1 then r.2.2 + 1 else r.2.2

/-- The bytes in front of the first pointer are counted, the root, and the pointer. -/
theorem headAt_of_readNameLoop
    {mem : Mem} {fuel p count : Nat} {name : Bytes} {r : Bytes × Bool × Nat}
    (h : readNameLoop mem fuel p false count name = .ok r) :
    ∃ u n, HeadAt mem p u n ∧ finalCount r + 1 = count + u.length + n := by
  induction fuel generalizing p count name with
  | zero =>
      cases h
  | succ fuel ih =>
      rcases readNameLoop_cases h with ⟨hp, hc, rfl⟩ | ⟨hp, hge, h⟩ | ⟨hp, hc, hlt, h⟩
      · exact ⟨[], 1, .done hp hc, rfl⟩
      · refine ⟨[], 2, .pointer hp hge, ?_⟩
        rw [finalCount, readNameLoop_jumped h]
        rfl
      · obtain ⟨u, n, hu, hr⟩ := ih h
        refine ⟨mem p :: u, n, .byte hp hc hlt hu, ?_⟩
        rw [hr, List.length_cons, if_neg Bool.false_ne_true]
        omega

/-! ## Uniqueness -/

theorem NameAt.unique
    {mem : Mem} {p : Nat} {w w' : Bytes} (h : NameAt mem p w) (h' : NameAt mem p w') :
    w = w' := by
  induction h generalizing w' with
  | done hp hc =>
      cases h' with
      | done => rfl
      | byte _ hc' => exact absurd hc hc'
      | pointer _ hge => exact absurd hc (ne_zero_of_pointer hge)
  | byte hp hc hlt hw ih =>
      cases h' with
      | done _ hc' => exact absurd hc' hc
      | byte _ _ _ hw' => rw [ih hw']
      | pointer _ hge => exact absurd hge (Nat.not_le.mpr hlt)
  | pointer hp hge hw ih =>
      cases h' with
      | done _ hc => exact absurd hc (ne_zero_of_pointer hge)
      | byte _ _ hlt => exact absurd hge (Nat.not_le.mpr hlt)
      | pointer _ _ hw' => exact ih hw'

theorem HeadAt.unique
    {mem : Mem} {p n n' : Nat} {u u' : Bytes} (h : HeadAt mem p u n) (h' : HeadAt mem p u' n') :
    u = u' ∧ n = n' := by
  induction h generalizing u' n' with
  | done hp hc =>
      cases h' with
      | done => exact ⟨rfl, rfl⟩
      | byte _ hc' => exact absurd hc hc'
      | pointer _ hge => exact absurd hc (ne_zero_of_pointer hge)
  | pointer hp hge =>
      cases h' with
      | done _ hc => exact absurd hc (ne_zero_of_pointer hge)
      | byte _ _ hlt => exact absurd hge (Nat.not_le.mpr hlt)
      | pointer => exact ⟨rfl, rfl⟩
  | byte hp hc hlt hu ih =>
      cases h' with
      | done _ hc' => exact absurd hc' hc
      | byte _ _ _ hu' =>
          obtain ⟨rfl, rfl⟩ := ih hu'
          exact ⟨rfl, rfl⟩
      | pointer _ hge => exact absurd hge (Nat.not_le.mpr hlt)

/-! ## The conversion -/

theorem labelsFit_append {k i : Nat} {l w : Bytes} (hl : l.length = k) :
    LabelsFit k i (l ++ w) ↔ LabelsFit 0 (i + k) w := by
  induction l generalizing k i with
  | nil =>
      rw [← hl, List.nil_append]
      rfl
  | cons c l ih =>
      rw [← hl, List.length_cons, List.cons_append, LabelsFit, ih rfl, Nat.add_right_comm,
        Nat.add_assoc]

theorem labelsFit_of_le {k i : Nat} {w : Bytes} (h : w.length ≤ k) : LabelsFit k i w := by
  induction w generalizing k i with
  | nil =>
      cases k <;> trivial
  | cons c w ih =>
      cases k with
      | zero =>
          cases h
      | succ k =>
          exact ih (Nat.le_of_succ_le_succ h)

/-- A label that ends behind the array is not moved. -/
theorem shiftLabel_overflow
    {n i : Nat} {name : Bytes} (hi : i < name.length) (hn : name.length ≤ i + n) :
    shiftLabel n i name = .error .nameOverflow := by
  induction n generalizing i name with
  | zero =>
      exact absurd hi (Nat.not_lt.mpr hn)
  | succ n ih =>
      rw [shiftLabel]
      by_cases hroom : i + 1 < name.length
      · rw [if_pos hroom]
        refine ih ?_ ?_ <;> rw [List.length_set]
        · exact hroom
        · omega
      · rw [if_neg hroom]

theorem shiftLabel_index {n i : Nat} {name : Bytes} {r : Nat × Bytes}
    (h : shiftLabel n i name = .ok r) : r.1 = i + n := by
  induction n generalizing i name with
  | zero =>
      cases h
      rfl
  | succ n ih =>
      rw [shiftLabel] at h
      split at h
      · rw [ih h]
        omega
      · cases h

/-- The index of the conversion grows. -/
theorem convertName_index {fuel i : Nat} {name : Bytes} {r : Nat × Bytes}
    (h : convertName fuel i name = .ok r) :
    i ≤ r.1 ∧ (i < (cString name).length → i < r.1) := by
  induction fuel generalizing i name with
  | zero =>
      cases h
  | succ fuel ih =>
      rw [convertName] at h
      split at h
      · cases h
      split at h
      · rename_i hend
        cases h
        exact ⟨Nat.le_refl i, fun hlt => absurd hend (Nat.not_le.mpr hlt)⟩
      · obtain ⟨shifted, hshift, hrest⟩ := Simulation.bind_eq_ok h
        have hindex := shiftLabel_index hshift
        have hle := (ih hrest).1
        omega

/-- The last label, which goes on behind the bytes that were copied. -/
theorem convertName_last
    {done rest pad : Bytes} {c : UInt8} (hdone : (0 : UInt8) ∉ done) (hrest : (0 : UInt8) ∉ rest)
    (hc : rest.length < c.toNat) (hroom : c.toNat ≤ rest.length + 1 + pad.length) (fuel : Nat) :
    ∃ r, convertName (fuel + 2) done.length (done ++ c :: rest ++ 0 :: pad) = .ok r := by
  obtain ⟨l, more, hpad, hlen⟩ : ∃ l more, pad = l ++ more ∧ (rest ++ 0 :: l).length = c.toNat := by
    refine ⟨pad.take (c.toNat - rest.length - 1), pad.drop (c.toNat - rest.length - 1),
      (List.take_append_drop _ _).symm, ?_⟩
    rw [List.length_append, List.length_cons, List.length_take]
    omega
  have hname : done ++ c :: rest ++ 0 :: pad =
      done ++ UInt8.ofNat (rest ++ 0 :: l).length :: (rest ++ 0 :: l) ++ more := by
    rw [hlen, UInt8.ofNat_toNat, hpad]
    simp
  have hlabel : 1 ≤ (rest ++ 0 :: l).length ∧ (rest ++ 0 :: l).length < 256 := by
    have := c.toNat_lt
    omega
  have hzero : (0 : UInt8) ∈ (rest ++ 0 :: l) ++ more := by simp
  rw [hname, convertName_label hdone hlabel hzero, convertName]
  have hstring : cString (done ++ (rest ++ 0 :: l) ++ ['.'.toUInt8] ++ more) = done ++ rest := by
    have hfront : (0 : UInt8) ∉ done ++ rest := by
      rw [List.mem_append]
      exact fun h => h.elim hdone hrest
    rw [show done ++ (rest ++ 0 :: l) ++ ['.'.toUInt8] ++ more =
      (done ++ rest) ++ 0 :: (l ++ ['.'.toUInt8] ++ more) by simp, cString_append_zero,
      cString_eq_self hfront]
  rw [hstring, if_neg (by simp), if_pos (by simp)]
  exact ⟨_, rfl⟩

/-- A label that ends behind the array. -/
theorem convertName_overflow
    {done rest : Bytes} {c : UInt8} (hdone : (0 : UInt8) ∉ done) (hc : c ≠ 0)
    (hover : (done ++ c :: rest).length ≤ done.length + c.toNat) (fuel : Nat) {r : Nat × Bytes} :
    convertName fuel done.length (done ++ c :: rest) ≠ .ok r := by
  intro h
  cases fuel with
  | zero =>
      cases h
  | succ fuel =>
      rw [convertName] at h
      split at h
      · cases h
      split at h
      · rename_i hend
        refine absurd hend (Nat.not_le.mpr ?_)
        rw [cString_append_of_not_mem hdone, cString_cons_of_ne _ hc, List.length_append,
          List.length_cons]
        omega
      · have hbyte : (done ++ c :: rest).getD done.length 0 = c := by simp
        have hplace : done.length < (done ++ c :: rest).length := by simp
        rw [hbyte, shiftLabel_overflow hplace hover] at h
        cases h

/-- The conversion of the bytes that were copied keeps to the array when the labels fit. -/
theorem convertName_iff
    {done rest pad : Bytes} (hdone : (0 : UInt8) ∉ done) (hrest : (0 : UInt8) ∉ rest)
    (hlen : (done ++ rest ++ 0 :: pad).length = 256) {fuel : Nat} (hfuel : rest.length < fuel) :
    (∃ r, convertName fuel done.length (done ++ rest ++ 0 :: pad) = .ok r) ↔
      LabelsFit 0 done.length rest := by
  induction hn : rest.length using Nat.strong_induction_on generalizing done rest fuel with
  | _ n ih =>
  obtain ⟨fuel, rfl⟩ := Nat.exists_eq_succ_of_ne_zero (Nat.ne_of_gt (Nat.zero_lt_of_lt hfuel))
  cases rest with
  | nil =>
      have hstring : cString (done ++ [] ++ 0 :: pad) = done := by
        rw [cString_append_zero, List.append_nil, cString_eq_self hdone]
      rw [convertName, hstring, if_neg (by simp), if_pos (Nat.le_refl _)]
      exact ⟨fun _ => trivial, fun _ => ⟨_, rfl⟩⟩
  | cons c rest =>
      have hc : c ≠ 0 := fun hzero => hrest (hzero ▸ List.mem_cons_self)
      have hrest : (0 : UInt8) ∉ rest := fun hmem => hrest (List.mem_cons_of_mem c hmem)
      have hpos : 1 ≤ c.toNat := by
        rw [Nat.one_le_iff_ne_zero]
        exact fun hzero => hc (UInt8.toNat_inj.mp hzero)
      have htotal : done.length + (rest.length + 1) + (pad.length + 1) = 256 := by
        rw [List.length_append, List.length_append, List.length_cons, List.length_cons] at hlen
        exact hlen
      rw [LabelsFit]
      rcases Nat.lt_or_ge rest.length c.toNat with hlt | hle
      · rw [and_iff_left (labelsFit_of_le (Nat.le_of_lt hlt))]
        constructor
        · rintro ⟨r, hr⟩
          by_contra hover
          rw [List.append_assoc, List.cons_append] at hr hlen
          exact convertName_overflow hdone hc (by rw [hlen]; omega) _ hr
        · intro hfit
          obtain ⟨fuel, rfl⟩ : ∃ f, fuel = f + 1 := Nat.exists_eq_succ_of_ne_zero (by
            rw [List.length_cons] at hfuel
            omega)
          exact convertName_last hdone hrest hlt (by omega) fuel
      · obtain ⟨l, more, rfl, hl⟩ : ∃ l more, rest = l ++ more ∧ l.length = c.toNat :=
          ⟨rest.take c.toNat, rest.drop c.toNat, (List.take_append_drop _ _).symm,
            List.length_take_of_le hle⟩
        rw [List.length_append] at htotal hle
        have hl0 : (0 : UInt8) ∉ l := fun hmem => hrest (List.mem_append_left more hmem)
        have hmore : (0 : UInt8) ∉ more := fun hmem => hrest (List.mem_append_right l hmem)
        have hname : done ++ c :: (l ++ more) ++ 0 :: pad =
            done ++ UInt8.ofNat l.length :: l ++ (more ++ 0 :: pad) := by
          rw [hl, UInt8.ofNat_toNat]
          simp
        have hdone' : (0 : UInt8) ∉ done ++ l ++ ['.'.toUInt8] := by
          simp [hdone, hl0]
          decide
        have hindex : (done ++ l ++ ['.'.toUInt8]).length = done.length + 1 + c.toNat := by
          simp [hl]
          omega
        have hrec := ih more.length (by rw [← hn, List.length_cons, List.length_append]; omega)
          hdone' hmore (by simp [hl]; omega)
          (show more.length < fuel by rw [List.length_cons, List.length_append] at hfuel; omega) rfl
        rw [hname, convertName_label hdone ⟨by omega, by omega⟩ (by simp), ← List.append_assoc,
          hrec, labelsFit_append hl, hindex]
        exact (and_iff_right (by omega)).symm

/-! ## The size of the name -/

theorem Occupies.pos {mem : Mem} {p n : Nat} (h : Occupies mem p n) : 1 ≤ n := by
  cases h with
  | root => exact Nat.le_refl 1
  | pointer => exact Nat.le_succ 1
  | label _ _ _ _ => omega

/-- One byte is the root. -/
theorem occupies_one {mem : Mem} {p : Nat} :
    Occupies mem p 1 ↔ p < clientBufSize ∧ mem p = 0 := by
  constructor
  · intro h
    generalize hn : 1 = n at h
    cases h with
    | root hp hc => exact ⟨hp, hc⟩
    | pointer => cases hn
    | label hp hc hlt hrest =>
        have := hrest.pos
        exact absurd (UInt8.toNat_inj.mp (show (mem p).toNat = (0 : UInt8).toNat by
          change (mem p).toNat = 0
          omega)) hc
  · rintro ⟨hp, hc⟩
    exact .root hp hc

/-- A label in front of the root or a pointer. -/
theorem occupies_label {mem : Mem} {p m : Nat} (hp : p < clientBufSize) (hc : mem p ≠ 0)
    (hlt : (mem p).toNat < 192) :
    Occupies mem p m ↔
      ∃ n, Occupies mem (p + 1 + (mem p).toNat) n ∧ m = 1 + (mem p).toNat + n := by
  constructor
  · intro h
    cases h with
    | root _ hc' => exact absurd hc' hc
    | pointer _ hge => exact absurd hge (Nat.not_le.mpr hlt)
    | label _ _ _ hrest => exact ⟨_, hrest, rfl⟩
  · rintro ⟨n, hrest, rfl⟩
    exact .label hp hc hlt hrest

/-- The labels are walked through until the zero byte or the pointer is reached. -/
theorem occupies_of_headAt {mem : Mem} {p n : Nat} {u : Bytes} (hu : HeadAt mem p u n) (k m : Nat) :
    (∃ m', Occupies mem (p + k) m' ∧ m = k + m') ↔
      ∃ m', Occupies mem (p + u.length + missing k u) m' ∧ m = u.length + missing k u + m' := by
  induction hu generalizing k m with
  | done hp hc =>
      simp [missing]
  | pointer hp hge =>
      simp [missing]
  | @byte p n u hp hc hlt hu ih =>
      have hplace : ∀ k, p + (mem p :: u).length + k = p + 1 + u.length + k := by
        intro k
        rw [List.length_cons]
        omega
      cases k with
      | zero =>
          rw [missing, hplace, List.length_cons, Nat.add_zero]
          constructor
          · rintro ⟨m', hname, rfl⟩
            obtain ⟨rest, hrest, rfl⟩ := (occupies_label hp hc hlt).mp hname
            obtain ⟨m'', hm'', heq⟩ := (ih (mem p).toNat _).mp ⟨rest, hrest, rfl⟩
            exact ⟨m'', hm'', by omega⟩
          · rintro ⟨m'', hm'', rfl⟩
            obtain ⟨rest, hrest, heq⟩ := (ih (mem p).toNat _).mpr ⟨m'', hm'', rfl⟩
            exact ⟨_, (occupies_label hp hc hlt).mpr ⟨rest, hrest, rfl⟩, by omega⟩
      | succ k =>
          rw [missing, hplace, List.length_cons, Nat.add_comm k 1, ← Nat.add_assoc]
          constructor
          · rintro ⟨m', hname, rfl⟩
            obtain ⟨m'', hm'', heq⟩ := (ih k _).mp ⟨m', hname, rfl⟩
            exact ⟨m'', hm'', by omega⟩
          · rintro ⟨m'', hm'', rfl⟩
            obtain ⟨m', hname, heq⟩ := (ih k _).mpr ⟨m'', hm'', rfl⟩
            exact ⟨m', hname, by omega⟩

/-- What stands behind the bytes in front of the first pointer. -/
theorem HeadAt.stop {mem : Mem} {p n : Nat} {u : Bytes} (h : HeadAt mem p u n) :
    (n = 1 ∧ Occupies mem (p + u.length) 1) ∨
      (n = 2 ∧ p + u.length + 1 < clientBufSize ∧ 192 ≤ (mem (p + u.length)).toNat) := by
  induction h with
  | done hp hc =>
      exact .inl ⟨rfl, .root hp hc⟩
  | pointer hp hge =>
      exact .inr ⟨rfl, hp, hge⟩
  | byte hp hc hlt hu ih =>
      rwa [List.length_cons, Nat.add_comm _ 1, ← Nat.add_assoc]

/-- The bytes up to the first pointer or the root are the name at this place. -/
theorem occupies_headAt_iff {mem : Mem} {p n : Nat} {u : Bytes} (hu : HeadAt mem p u n) :
    Occupies mem p (u.length + n) ↔ WholeLabels mem p u n := by
  have hwalk := occupies_of_headAt hu 0 (u.length + n)
  simp only [Nat.add_zero, Nat.zero_add, exists_eq_right'] at hwalk
  rw [hwalk, WholeLabels]
  constructor
  · rintro ⟨m, hm, heq⟩
    have hpos := hm.pos
    rcases hu.stop with ⟨rfl, -⟩ | ⟨rfl, -, -⟩
    · exact .inl (by omega)
    · rcases Nat.eq_zero_or_pos (missing 0 u) with hzero | hmissing
      · exact .inl hzero
      · have hone : missing 0 u = 1 := by omega
        obtain rfl : m = 1 := by omega
        rw [hone] at hm
        exact .inr ⟨hone, rfl, (occupies_one.mp hm).2⟩
  · rintro (hzero | ⟨hone, rfl, hc⟩)
    · rw [hzero, Nat.add_zero]
      refine ⟨n, ?_, rfl⟩
      rcases hu.stop with ⟨rfl, hroot⟩ | ⟨rfl, hp, hge⟩
      · exact hroot
      · exact .pointer hp hge
    · rw [hone]
      refine ⟨1, ?_, by omega⟩
      rcases hu.stop with ⟨h, -⟩ | ⟨-, hp, -⟩
      · cases h
      · exact .root hp hc

/-! ## The whole function -/

/-- The two loops return, and there is a last dot to remove. -/
theorem readName_eq_ok_iff {mem : Mem} {p count : Nat} :
    (∃ name, readName mem p = .ok (name, count)) ↔
      ∃ r converted, readNameLoop mem readNameFuel p false 1 [] = .ok r ∧ r.1.length ≤ 255 ∧
        convertName 257 0 (r.1 ++ List.replicate (256 - r.1.length) 0) = .ok converted ∧
        converted.1 ≠ 0 ∧ count = finalCount r := by
  constructor
  · rintro ⟨name, h⟩
    rw [readName] at h
    obtain ⟨⟨copied, jumped, counted⟩, hloop, h⟩ := Simulation.bind_eq_ok h
    dsimp only at h
    split at h
    · cases h
    rename_i hlen
    obtain ⟨⟨i, converted⟩, hconvert, h⟩ := Simulation.bind_eq_ok h
    dsimp only at h
    split at h
    · cases h
    rename_i hne
    cases h
    exact ⟨_, _, hloop, Nat.le_of_not_lt hlen, hconvert, hne, rfl⟩
  · rintro ⟨r, converted, hloop, hlen, hconvert, hne, rfl⟩
    refine ⟨converted.2.set (converted.1 - 1) 0, ?_⟩
    rw [readName, hloop]
    change (if 256 ≤ r.1.length then _ else _) = _
    rw [if_neg (by omega), hconvert]
    change (if converted.1 = 0 then _ else _) = _
    rw [if_neg hne]
    rfl

/-- The conversion of the whole name. -/
theorem convertName_name_iff {w : Bytes} (hw : (0 : UInt8) ∉ w) (hlen : w.length ≤ 255) :
    (∃ converted, convertName 257 0 (w ++ List.replicate (256 - w.length) 0) = .ok converted ∧
      converted.1 ≠ 0) ↔ 1 ≤ w.length ∧ LabelsFit 0 0 w := by
  obtain ⟨n, hn⟩ : ∃ n, 256 - w.length = n + 1 := ⟨255 - w.length, by omega⟩
  have htotal : ([] ++ w ++ 0 :: List.replicate n 0).length = 256 := by
    simp
    omega
  have hfit := convertName_iff List.not_mem_nil hw htotal
    (Nat.lt_of_le_of_lt hlen (by decide : 255 < 257))
  have hstring : cString (w ++ 0 :: List.replicate n 0) = w := by
    rw [cString_append_zero, cString_eq_self hw]
  rw [List.nil_append, List.length_nil] at hfit
  rw [hn, List.replicate_succ, ← hfit]
  constructor
  · rintro ⟨converted, hconvert, hne⟩
    refine ⟨?_, converted, hconvert⟩
    by_contra hnil
    obtain rfl : w = [] := List.eq_nil_of_length_eq_zero (by omega)
    rw [convertName, hstring, if_neg (by simp), List.length_nil,
      if_pos (Nat.le_refl 0)] at hconvert
    cases hconvert
    exact hne rfl
  · rintro ⟨hpos, converted, hconvert⟩
    refine ⟨converted, hconvert, Nat.ne_of_gt ?_⟩
    exact (convertName_index hconvert).2 (by rwa [hstring])

/-- On any buffer and from any place in it, `ReadName` returns, keeps to its arrays and
counts the bytes of the name exactly when
* one comes to a zero byte without leaving the buffer,
* after at least one and at most 255 bytes besides the pointers,
* the labels that these bytes are made of end inside the array, and
* no label in front of the first pointer or the root holds a zero byte or a pointer. -/
theorem name_read_iff (mem : Mem) (p : Nat) :
    ReadsName mem p ↔
      (∃ w, NameAt mem p w ∧ 1 ≤ w.length ∧ w.length ≤ 255 ∧ LabelsFit 0 0 w) ∧
        ∃ u n, HeadAt mem p u n ∧ WholeLabels mem p u n := by
  rw [ReadsName, exists_comm]
  constructor
  · rintro ⟨count, name, hread, hsize⟩
    obtain ⟨r, converted, hloop, hlen, hconvert, hne, rfl⟩ := readName_eq_ok_iff.mp ⟨name, hread⟩
    obtain ⟨w, hw, hr⟩ := nameAt_of_readNameLoop hloop
    obtain ⟨u, n, hu, hcount⟩ := headAt_of_readNameLoop hloop
    rw [List.nil_append] at hr
    rw [hr] at hlen hconvert
    obtain ⟨hpos, hfit⟩ :=
      (convertName_name_iff hw.zero_not_mem hlen).mp ⟨converted, hconvert, hne⟩
    have hbytes : finalCount r = u.length + n := by omega
    rw [hbytes] at hsize
    exact ⟨⟨w, hw, hpos, hlen, hfit⟩, u, n, hu, (occupies_headAt_iff hu).mp hsize⟩
  · rintro ⟨⟨w, hw, hpos, hlen, hfit⟩, u, n, hu, hwhole⟩
    obtain ⟨r, hloop⟩ := readNameLoop_of_nameAt hw (Nat.le_succ_of_le hlen)
    obtain ⟨w', hw', hr⟩ := nameAt_of_readNameLoop hloop
    obtain ⟨u', n', hu', hcount⟩ := headAt_of_readNameLoop hloop
    obtain rfl := hw.unique hw'
    obtain ⟨rfl, rfl⟩ := hu.unique hu'
    rw [List.nil_append] at hr
    obtain ⟨converted, hconvert, hne⟩ :=
      (convertName_name_iff hw.zero_not_mem hlen).mpr ⟨hpos, hfit⟩
    rw [← hr] at hlen hconvert
    obtain ⟨name, hread⟩ := readName_eq_ok_iff.mpr ⟨r, converted, hloop, hlen, hconvert, hne, rfl⟩
    have hbytes : finalCount r = u.length + n := by omega
    exact ⟨finalCount r, name, hread, hbytes ▸ (occupies_headAt_iff hu).mpr hwhole⟩

/-- A pointer to itself, behind the header and a question. -/
def selfPointer : Mem :=
  buffer (List.replicate 23 0 ++ [192, 23]) []

theorem not_nameAt_selfPointer {p : Nat} {w : Bytes} (h : NameAt selfPointer p w) : p ≠ 23 := by
  induction h with
  | done hp hc =>
      rintro rfl
      exact absurd hc (by decide)
  | byte hp hc hlt hw ih =>
      rintro rfl
      exact absurd hlt (by decide)
  | pointer hp hge hw ih =>
      rintro rfl
      exact ih (by decide)

/-- The client follows the pointer for ever. -/
theorem name_read_fails : ¬ ∀ (mem : Mem) (p : Nat), p < clientBufSize → ReadsName mem p := by
  intro h
  obtain ⟨name, count, hread, -⟩ := h selfPointer 23 (by decide)
  obtain ⟨r, -, hloop, -⟩ := readName_eq_ok_iff.mp ⟨name, hread⟩
  obtain ⟨w, hw, -⟩ := nameAt_of_readNameLoop hloop
  exact not_nameAt_selfPointer hw rfl

end Torrentkino
