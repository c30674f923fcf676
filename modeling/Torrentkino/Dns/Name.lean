import Torrentkino.Dns.Response
import Torrentkino.Lib.DnsWire

/-!
# Names on the wire and in the buffer

`p_decode_domain` writes the labels of a name with dots between them, and
`p_encode_domain` cuts what it finds at the dots.  On labels without dots one
undoes the other.

**Results.**
* `encodeLabels_eq`: `p_encode_domain` writes the pieces between the dots as labels.
* `pDecodeDomain_spec`: a name that `p_decode_domain` accepts is the wire form of some
  labels, and the buffer has these with dots between them.
* `pDecodeDomain_wireName`: and every such name that is not too long is accepted.
-/

namespace Torrentkino

open Memory CString DnsWire

/-! ## `p_encode_domain` -/

theorem modifyHead_nil_append (ls : List Bytes) : ls.modifyHead ([] ++ ·) = ls := by
  cases ls <;> rfl

theorem encodeLabels_modifyHead (label domain : Bytes) :
    encodeLabels label domain =
      wireName ((domain.splitOn '.'.toUInt8).modifyHead (label ++ ·)) := by
  induction domain generalizing label with
  | nil =>
      simp [encodeLabels, wireName]
  | cons c domain ih =>
      rw [encodeLabels, List.splitOn_cons_eq_if_modifyHead]
      by_cases hc : c = '.'.toUInt8
      · rw [if_pos hc, if_pos (by simpa using hc), ih [], modifyHead_nil_append]
        simp [wireName]
      · rw [if_neg hc, if_neg (by simpa using hc), ih, List.modifyHead_modifyHead]
        simp [Function.comp_def]

/-- The labels are the pieces between the dots. -/
theorem encodeLabels_eq (domain : Bytes) :
    encodeLabels [] domain = wireName (domain.splitOn '.'.toUInt8) := by
  rw [encodeLabels_modifyHead, modifyHead_nil_append]

theorem encodeLabels_dotted
    {ls : List Bytes} (hls : ls ≠ []) (hdots : ∀ l ∈ ls, '.'.toUInt8 ∉ l) :
    encodeLabels [] (dotted ls) = wireName ls := by
  rw [encodeLabels_eq, dotted, List.splitOn_intercalate _ hdots hls]

/-! ## Labels with dots between them -/

theorem length_dotted_le {ls : List Bytes} {l : Bytes} (hl : l ∈ ls) :
    l.length ≤ (dotted ls).length := by
  induction ls with
  | nil =>
      cases hl
  | cons l' ls ih =>
      rcases eq_or_ne ls [] with rfl | hne
      · rw [List.mem_singleton.mp hl, dotted, List.intercalate_singleton]
      rw [dotted, List.intercalate_cons_of_ne_nil hne, List.length_append, List.length_append]
      rcases List.mem_cons.mp hl with rfl | hl
      · omega
      · have := ih hl
        rw [dotted] at this
        omega

/-- One byte for each label and two more. -/
theorem length_wireName_of_ne_nil {ls : List Bytes} (hls : ls ≠ []) :
    (wireName ls).length = (dotted ls).length + 2 := by
  induction ls with
  | nil =>
      exact absurd rfl hls
  | cons l ls ih =>
      rcases eq_or_ne ls [] with rfl | hne
      · simp [wireName, dotted]
      · rw [dotted, List.intercalate_cons_of_ne_nil hne, wireName]
        have := ih hne
        rw [dotted] at this
        simp only [List.cons_append, List.length_cons, List.length_append, this, List.length_nil]
        omega

theorem mem_dotted {ls : List Bytes} {c : UInt8} (hc : c ∈ dotted ls) :
    c = '.'.toUInt8 ∨ ∃ l ∈ ls, c ∈ l := by
  induction ls with
  | nil =>
      cases hc
  | cons l ls ih =>
      rcases eq_or_ne ls [] with rfl | hne
      · rw [dotted, List.intercalate_singleton] at hc
        exact .inr ⟨l, List.mem_cons_self, hc⟩
      rw [dotted, List.intercalate_cons_of_ne_nil hne] at hc
      rcases List.mem_append.mp hc with hc | hc
      · rcases List.mem_append.mp hc with hc | hc
        · exact .inr ⟨l, List.mem_cons_self, hc⟩
        · exact .inl (List.mem_singleton.mp hc)
      · rcases ih hc with hdot | ⟨l', hl', hc⟩
        · exact .inl hdot
        · exact .inr ⟨l', List.mem_cons_of_mem l hl', hc⟩

theorem mem_dotted_of_mem {ls : List Bytes} {l : Bytes} (hl : l ∈ ls) {c : UInt8} (hc : c ∈ l) :
    c ∈ dotted ls := by
  induction ls with
  | nil =>
      cases hl
  | cons l' ls ih =>
      rcases eq_or_ne ls [] with rfl | hne
      · rw [List.mem_singleton.mp hl] at hc
        rwa [dotted, List.intercalate_singleton]
      rw [dotted, List.intercalate_cons_of_ne_nil hne]
      rcases List.mem_cons.mp hl with rfl | hl
      · exact List.mem_append_left _ (List.mem_append_left _ hc)
      · exact List.mem_append_right _ (ih hl)

/-- There is no dot between two dots. -/
theorem not_mem_of_mem_splitOn {c : UInt8} {s l : Bytes} (hl : l ∈ s.splitOn c) : c ∉ l := by
  induction s generalizing l with
  | nil =>
      rw [List.splitOn_nil, List.mem_singleton] at hl
      simp [hl]
  | cons d s ih =>
      rw [List.splitOn_cons_eq_if_modifyHead] at hl
      split at hl
      · rcases List.mem_cons.mp hl with rfl | hl
        · exact List.not_mem_nil
        · exact ih hl
      · rename_i hd
        cases hsplit : s.splitOn c with
        | nil =>
            exact absurd hsplit (List.splitOn_ne_nil c s)
        | cons l' ls =>
            rw [hsplit] at hl ih
            rcases List.mem_cons.mp hl with rfl | hl
            · simp only [List.mem_cons, not_or]
              exact ⟨fun heq => hd (by simp [heq]), ih List.mem_cons_self⟩
            · exact ih (List.mem_cons_of_mem l' hl)

theorem not_mem_of_length_cString {b : Bytes} (h : (cString b).length = b.length) :
    (0 : UInt8) ∉ b := by
  induction b with
  | nil =>
      exact List.not_mem_nil
  | cons c b ih =>
      rcases eq_or_ne c 0 with rfl | hc
      · simp at h
      · rw [cString_cons_of_ne b hc] at h
        simp only [List.mem_cons, not_or]
        exact ⟨Ne.symm hc, ih (Nat.succ.inj h)⟩

/-- The text of labels is encoded as these labels in exactly the case that there are
some and no byte in them is a dot or ends the text. -/
theorem encodeLabels_cString_iff
    {ls : List Bytes} (hls : ∀ l ∈ ls, 1 ≤ l.length ∧ l.length < 256)
    (hlen : (dotted ls).length < 256) :
    encodeLabels [] (cString (dotted ls)) = wireName ls ↔
      ls ≠ [] ∧ ∀ l ∈ ls, '.'.toUInt8 ∉ l ∧ (0 : UInt8) ∉ l := by
  constructor
  · intro h
    have hne : ls ≠ [] := by
      rintro rfl
      exact absurd (congrArg List.length h) (by decide)
    have hsame : (cString (dotted ls)).length = (dotted ls).length := by
      have hwire := congrArg List.length h
      rw [encodeLabels_eq, length_wireName_of_ne_nil (List.splitOn_ne_nil _ _),
        length_wireName_of_ne_nil hne, dotted, List.intercalate_splitOn] at hwire
      omega
    have hzero := not_mem_of_length_cString hsame
    rw [cString_eq_self hzero, encodeLabels_eq] at h
    have hpieces : ∀ l ∈ (dotted ls).splitOn '.'.toUInt8, l.length < 256 := by
      intro l hl
      refine Nat.lt_of_le_of_lt (length_dotted_le hl) ?_
      rwa [dotted, List.intercalate_splitOn]
    have hsplit := wireName_inj hpieces (fun l hl => (hls l hl).2) h
    refine ⟨hne, fun l hl => ⟨?_, fun hc => hzero (mem_dotted_of_mem hl hc)⟩⟩
    rw [← hsplit] at hl
    exact not_mem_of_mem_splitOn hl
  · rintro ⟨hne, hchars⟩
    have hzero : (0 : UInt8) ∉ dotted ls := by
      intro hc
      rcases mem_dotted hc with hdot | ⟨l, hl, hc⟩
      · cases hdot
      · exact (hchars l hl).2 hc
    rw [cString_eq_self hzero, encodeLabels_dotted hne fun l hl => (hchars l hl).1]

/-- A name with a label, and without dots and zero bytes in its labels. -/
structure DnsName where
  labels : List Bytes
  labels_ne_nil : labels ≠ []
  label_length : ∀ l ∈ labels, 1 ≤ l.length ∧ l.length ≤ 63
  label_chars : ∀ l ∈ labels, '.'.toUInt8 ∉ l ∧ (0 : UInt8) ∉ l
  length_le : (dotted labels).length ≤ 253

namespace DnsName

/-- The labels with dots between them. -/
def text (n : DnsName) : Bytes :=
  dotted n.labels

/-- The name in the wire format. -/
def wire (n : DnsName) : DnsWire.Name where
  labels := n.labels
  label_length := n.label_length
  length_le := by
    have := n.length_le
    rw [length_wireName_of_ne_nil n.labels_ne_nil]
    omega

@[simp] theorem labels_wire (n : DnsName) : n.wire.labels = n.labels := rfl

theorem encodeLabels_text (n : DnsName) : encodeLabels [] n.text = wireName n.labels :=
  encodeLabels_dotted n.labels_ne_nil fun l hl => (n.label_chars l hl).1

theorem zero_not_mem_text (n : DnsName) : (0 : UInt8) ∉ n.text := by
  intro hc
  rcases mem_dotted hc with hdot | ⟨l, hl, hc⟩
  · cases hdot
  · exact (n.label_chars l hl).2 hc

theorem splitOn_text (n : DnsName) : n.text.splitOn '.'.toUInt8 = n.labels :=
  List.splitOn_intercalate _ (fun l hl => (n.label_chars l hl).1) n.labels_ne_nil

/-- What follows a dot of a name is a name. -/
theorem exists_text_eq_of_append
    (n : DnsName) {front back : Bytes} (h : n.text = front ++ '.'.toUInt8 :: back) :
    ∃ m : DnsName, m.text = back := by
  have hsub : ∀ l ∈ back.splitOn '.'.toUInt8, l ∈ n.labels := by
    intro l hl
    rw [← n.splitOn_text, h, List.splitOn_append_cons_self]
    exact List.mem_append_right _ hl
  have htext : dotted (back.splitOn '.'.toUInt8) = back := List.intercalate_splitOn _
  have hlen := n.length_le
  rw [← text, h, List.length_append, List.length_cons] at hlen
  exact ⟨⟨back.splitOn '.'.toUInt8, List.splitOn_ne_nil _ _,
    fun l hl => n.label_length l (hsub l hl), fun l hl => n.label_chars l (hsub l hl),
    by rw [htext]; omega⟩, htext⟩

end DnsName

/-- What a round of `p_decode_domain` appends to the text. -/
def joinLabel (text l : Bytes) : Bytes :=
  if text = [] then l else text ++ '.'.toUInt8 :: l

/-- The text after the labels. -/
def joinLabels (text : Bytes) (ls : List Bytes) : Bytes :=
  ls.foldl joinLabel text

theorem joinLabels_of_ne_nil {text : Bytes} (htext : text ≠ []) (ls : List Bytes) :
    joinLabels text ls = text ++ ls.flatMap ('.'.toUInt8 :: ·) := by
  induction ls generalizing text with
  | nil =>
      simp [joinLabels]
  | cons l ls ih =>
      have hjoin : joinLabel text l = text ++ '.'.toUInt8 :: l := if_neg htext
      rw [joinLabels, List.foldl_cons, hjoin]
      change joinLabels (text ++ '.'.toUInt8 :: l) ls = _
      rw [ih (by simp), List.flatMap_cons, List.append_assoc]

theorem dotted_cons (l : Bytes) (ls : List Bytes) :
    dotted (l :: ls) = l ++ ls.flatMap ('.'.toUInt8 :: ·) := by
  induction ls generalizing l with
  | nil =>
      simp [dotted]
  | cons l' ls ih =>
      have hrest := ih l'
      rw [dotted] at hrest ⊢
      rw [List.intercalate_cons_cons, hrest, List.flatMap_cons]
      simp

theorem joinLabels_nil {ls : List Bytes} (hls : ∀ l ∈ ls, l ≠ []) :
    joinLabels [] ls = dotted ls := by
  cases ls with
  | nil =>
      rfl
  | cons l ls =>
      have hl : l ≠ [] := hls l List.mem_cons_self
      rw [joinLabels, List.foldl_cons, joinLabel, if_pos rfl]
      change joinLabels l ls = _
      rw [joinLabels_of_ne_nil hl, dotted_cons]

/-! ## `p_decode_domain` -/

theorem take_splice {b w : Bytes} {i : Nat} (hi : i ≤ b.length) :
    (splice b i w).take (i + w.length) = b.take i ++ w := by
  have hlen : (b.take i ++ w).length = i + w.length := by
    simp [hi]
  rw [splice, ← hlen, List.take_left]

theorem length_joinLabel_ge (text l : Bytes) : text.length ≤ (joinLabel text l).length := by
  rw [joinLabel]
  split
  · rename_i htext
    simp [htext]
  · simp

theorem length_joinLabels_ge (text : Bytes) (ls : List Bytes) :
    text.length ≤ (joinLabels text ls).length :=
  List.foldlRecOn (motive := fun text' : Bytes => text.length ≤ text'.length) _ _ (Nat.le_refl _)
    fun _ h l _ => h.trans (length_joinLabel_ge _ l)

/-- The bytes in front of a label: a dot, if there is some text. -/
theorem joinLabel_eq (text l : Bytes) :
    joinLabel text l = (if text.length ≠ 0 then text ++ ['.'.toUInt8] else text) ++ l := by
  rw [joinLabel]
  rcases eq_or_ne text [] with rfl | htext
  · rfl
  · rw [if_neg htext, if_pos (by simpa using htext), List.append_assoc]
    rfl

/-- A round: the label is written behind the text, if it fits. -/
theorem pDecodeDomainLoop_label
    {mem : Mem} {p : Nat} {text domain l : Bytes}
    (htext : domain.take text.length = text) (hl : 1 ≤ l.length) (hl' : l.length < 256)
    (hmem : Holds mem p (UInt8.ofNat l.length :: l)) (size fuel : Nat) :
    ∃ domain₁ domain₂, domain₂.take (joinLabel text l).length = joinLabel text l ∧
      pDecodeDomainLoop mem size (fuel + 1) p text.length domain =
        if (joinLabel text l).length ≥ 256 ∨ (joinLabel text l).length ≥ size then
          (none, domain₁)
        else
          pDecodeDomainLoop mem size fuel (p + 1 + l.length) (joinLabel text l).length domain₂ := by
  have hbyte : mem p = UInt8.ofNat l.length := hmem.1
  have hlen : (mem p).toNat = l.length := by
    rw [hbyte, toNat_ofNat_length hl']
  have hne : mem p ≠ 0 := by
    intro hzero
    rw [hzero] at hlen
    change 0 = l.length at hlen
    omega
  have hcopy : copy mem (p + 1) l.length = l := copy_of_holds hmem.2
  have hroom : text.length ≤ domain.length := by
    have := congrArg List.length htext
    rw [List.length_take] at this
    omega
  let text₁ := if text.length ≠ 0 then text ++ ['.'.toUInt8] else text
  let domain₁ := if text.length ≠ 0 then splice domain text.length ['.'.toUInt8] else domain
  have htake₁ : domain₁.take text₁.length = text₁ := by
    dsimp only [domain₁, text₁]
    split
    · have h := take_splice (w := ['.'.toUInt8]) hroom
      rw [htext] at h
      rwa [List.length_append]
    · exact htext
  have hroom₁ : text₁.length ≤ domain₁.length := by
    have := congrArg List.length htake₁
    rw [List.length_take] at this
    omega
  have hjoin : joinLabel text l = text₁ ++ l := joinLabel_eq text l
  have hjoinLen : (joinLabel text l).length = text₁.length + l.length := by
    rw [hjoin, List.length_append]
  refine ⟨domain₁, splice domain₁ text₁.length l, ?_, ?_⟩
  · rw [hjoinLen, take_splice hroom₁, htake₁, hjoin]
  · have hdot : (if text.length ≠ 0 then
        (text.length + 1, splice domain text.length ['.'.toUInt8])
      else (text.length, domain)) = (text₁.length, domain₁) := by
      dsimp only [domain₁, text₁]
      split
      · rw [List.length_append]
        rfl
      · rfl
    rw [pDecodeDomainLoop, if_neg hne]
    dsimp only
    rw [hdot, hlen, hcopy, hjoinLen]

/-- The end of the name: the text gets its zero byte. -/
theorem pDecodeDomainLoop_end
    {mem : Mem} {p : Nat} {text domain : Bytes} (htext : domain.take text.length = text)
    (hmem : mem p = 0) (size fuel : Nat) :
    ∃ rest, pDecodeDomainLoop mem size (fuel + 1) p text.length domain =
      (some p, text ++ 0 :: rest) := by
  rw [pDecodeDomainLoop, if_pos hmem, splice, htext, List.append_assoc]
  exact ⟨_, rfl⟩

theorem pDecodeDomainLoop_spec
    {mem : Mem} {size fuel p q : Nat} {text domain domain' : Bytes}
    (htext : domain.take text.length = text) (hlen : text.length < 256)
    (h : pDecodeDomainLoop mem size fuel p text.length domain = (some q, domain')) :
    ∃ ls, (∀ l ∈ ls, 1 ≤ l.length ∧ l.length < 256) ∧ Holds mem p (wireName ls) ∧
      q + 1 = p + (wireName ls).length ∧ (joinLabels text ls).length < 256 ∧
      ∃ rest, domain' = joinLabels text ls ++ 0 :: rest := by
  induction fuel generalizing p text domain with
  | zero =>
      cases h
  | succ fuel ih =>
      by_cases hzero : mem p = 0
      · obtain ⟨rest, hend⟩ := pDecodeDomainLoop_end htext hzero size fuel
        cases hend.symm.trans h
        exact ⟨[], by simp, by simp [wireName, hzero], rfl, hlen, rest, rfl⟩
      let l := copy mem (p + 1) (mem p).toNat
      have hl : l.length = (mem p).toNat := copy_length _ _
      have hmem : Holds mem p (UInt8.ofNat l.length :: l) := by
        refine ⟨?_, holds_copy _ _⟩
        rw [hl, UInt8.ofNat_toNat]
      have hpos : 1 ≤ l.length := by
        rw [hl]
        have hne : (mem p).toNat ≠ 0 := fun heq => hzero (UInt8.toNat_inj.mp heq)
        omega
      have hlt : l.length < 256 := hl ▸ (mem p).toNat_lt
      obtain ⟨domain₁, domain₂, htext₂, hround⟩ :=
        pDecodeDomainLoop_label htext hpos hlt hmem size fuel
      rw [hround] at h
      split at h
      · cases h
      · rename_i hfits
        obtain ⟨ls, hls, hwire, hq, hjoin, rest, hrest⟩ := ih htext₂ (by omega) h
        refine ⟨l :: ls, List.forall_mem_cons.mpr ⟨⟨hpos, hlt⟩, hls⟩, ?_, ?_, hjoin, rest, hrest⟩
        · rw [wireName, holds_append]
          refine ⟨hmem, ?_⟩
          rw [List.length_cons, Nat.add_comm l.length 1, ← Nat.add_assoc]
          exact hwire
        · rw [hq, wireName, List.length_append, List.length_cons]
          omega

theorem pDecodeDomainLoop_wireName
    {mem : Mem} {ls : List Bytes} (hls : ∀ l ∈ ls, 1 ≤ l.length ∧ l.length < 256) {fuel p : Nat}
    (hfuel : ls.length < fuel) {text domain : Bytes} (htext : domain.take text.length = text)
    (hmem : Holds mem p (wireName ls)) {size : Nat}
    (hlen : (joinLabels text ls).length < 256) (hsize : (joinLabels text ls).length < size) :
    ∃ q rest, pDecodeDomainLoop mem size fuel p text.length domain =
      (some q, joinLabels text ls ++ 0 :: rest) ∧ q + 1 = p + (wireName ls).length := by
  induction ls generalizing fuel p text domain with
  | nil =>
      obtain ⟨fuel, rfl⟩ := Nat.exists_eq_add_of_lt hfuel
      obtain ⟨rest, hend⟩ := pDecodeDomainLoop_end htext hmem.1 size (0 + fuel)
      exact ⟨p, rest, hend, rfl⟩
  | cons l ls ih =>
      cases fuel with
      | zero =>
          cases hfuel
      | succ fuel =>
          obtain ⟨hl, hls⟩ := List.forall_mem_cons.mp hls
          rw [wireName, holds_append] at hmem
          obtain ⟨domain₁, domain₂, htext₂, hround⟩ :=
            pDecodeDomainLoop_label htext hl.1 hl.2 hmem.1 size fuel
          have hge := length_joinLabels_ge (joinLabel text l) ls
          have hrest : Holds mem (p + 1 + l.length) (wireName ls) := by
            have := hmem.2
            rwa [List.length_cons, Nat.add_comm l.length 1, ← Nat.add_assoc] at this
          obtain ⟨q, rest, hrun, hq⟩ := ih hls (Nat.lt_of_succ_lt_succ hfuel) htext₂ hrest hlen hsize
          refine ⟨q, rest, ?_, ?_⟩
          · rw [hround, if_neg]
            · exact hrun
            · change (joinLabels (joinLabel text l) ls).length < 256 at hlen
              change (joinLabels (joinLabel text l) ls).length < size at hsize
              omega
          · rw [hq, wireName, List.length_append, List.length_cons]
            omega

/-- An accepted name is the wire form of labels, and the buffer has their text. -/
theorem pDecodeDomain_spec
    {domain domain' : Bytes} {mem : Mem} {p size n : Nat}
    (h : pDecodeDomain domain mem p size = (some n, domain')) :
    ∃ ls, (∀ l ∈ ls, 1 ≤ l.length ∧ l.length < 256) ∧ Holds mem p (wireName ls) ∧
      n = (wireName ls).length ∧ (dotted ls).length < 256 ∧
      ∃ rest, domain' = dotted ls ++ 0 :: rest := by
  rw [pDecodeDomain] at h
  generalize hrun : pDecodeDomainLoop mem size 257 p 0 domain = result at h
  obtain ⟨stop, out⟩ := result
  cases stop with
  | none =>
      cases h
  | some q =>
      cases h
      obtain ⟨ls, hls, hmem, hq, hlen, rest, hrest⟩ :=
        @pDecodeDomainLoop_spec mem size _ p q [] _ _ rfl (by decide) hrun
      rw [joinLabels_nil fun l hl heq => by simpa [heq] using (hls l hl).1] at hlen hrest
      refine ⟨ls, hls, hmem, ?_, hlen, rest, hrest⟩
      change q + 1 - p = _
      omega

/-- A short text has few labels. -/
theorem length_lt_of_dotted {ls : List Bytes} (h : (dotted ls).length < 256) : ls.length < 257 := by
  rcases eq_or_ne ls [] with rfl | hne
  · decide
  · have := lt_length_wireName ls
    rw [length_wireName_of_ne_nil hne] at this
    omega

/-- The wire form of labels that are not too long together is accepted. -/
theorem pDecodeDomain_wireName
    {mem : Mem} {ls : List Bytes} (hls : ∀ l ∈ ls, 1 ≤ l.length ∧ l.length < 256) {p size : Nat}
    (hmem : Holds mem p (wireName ls)) (hlen : (dotted ls).length < 256)
    (hsize : (dotted ls).length < size) (domain : Bytes) :
    ∃ rest, pDecodeDomain domain mem p size =
      (some (wireName ls).length, dotted ls ++ 0 :: rest) := by
  have hjoin : joinLabels [] ls = dotted ls :=
    joinLabels_nil fun l hl heq => by simpa [heq] using (hls l hl).1
  have hfuel := length_lt_of_dotted hlen
  rw [← hjoin] at hlen hsize
  obtain ⟨q, rest, hrun, hq⟩ :=
    @pDecodeDomainLoop_wireName mem ls hls 257 p hfuel [] domain rfl hmem size hlen hsize
  refine ⟨rest, ?_⟩
  rw [pDecodeDomain, show pDecodeDomainLoop mem size 257 p 0 domain = _ from hrun]
  dsimp only [Option.map_some]
  rw [hq, Nat.add_sub_cancel_left, hjoin]

end Torrentkino
