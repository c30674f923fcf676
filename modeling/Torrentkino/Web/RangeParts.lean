import Torrentkino.Web.ContentLength

/-!
# The parts of a file that a request selects

`sendfile` is called with the offsets that `http_range_simple` left in a part of the queue.
Several ranges are taken one after the other by `http_range_complex`, which calls itself with
what stands behind a comma of its copy of the header.

* `httpRangeComplexText` is the function on the text of the header, with the content length
  that it leaves in every case.
* `httpRangeComplexText_eq`: the model on the pieces between the commas is the same function.
* `exists_completesParts`: the parts that it completes, in every case.

**Result.** `rangesInside`: the offsets lie inside the file, and the sizes add up.
-/

namespace Torrentkino

open Memory CString

/-! ## The function on the text -/

/-- What `http_range_complex` leaves: the queue, the content length, and its result. -/
structure RangeResult where
  list : List Response
  contentLength : Nat
  ok : Bool
deriving DecidableEq, Repr

/-- The content length of a response that is not refused. -/
def RangeResult.accepted (r : RangeResult) : Option Nat :=
  if r.ok then some r.contentLength else none

theorem length_lt_of_cutAt
    {c : UInt8} {m : Nat} {s u v : Bytes} (h : cutAt c (s.take m) = some (u, v)) :
    v.length < s.length := by
  have hlen := congrArg List.length (cutAt_eq_some.mp h).1
  rw [List.length_take, List.length_append, List.length_cons] at hlen
  omega

/-- `http_range_complex`.  The text behind a comma is shorter, so the calls come to an end. -/
def httpRangeComplexText (f : RangeFile) (list : List Response) (pRange : Bytes)
    (contentLength : Nat) : RangeResult :=
  let i := list.length
  match respPut list .fromMemory with
  | none => ⟨list, contentLength, false⟩
  | some list =>
  match respPut list .fromFile with
  | none => ⟨list, contentLength, false⟩
  | some list =>
  match respPut list .fromMemory with
  | none => ⟨list, contentLength, false⟩
  | some list =>
  let range := pRange.take bufOff1
  let pStart := ((cutAt ','.toUInt8 range).map Prod.fst).getD range
  match httpRangeSimple f.filesize pStart contentLength with
  | none => ⟨list, contentLength, false⟩
  | some (fOffset, fStop, contentLength) =>
      let head := http206BoundaryHeadText fOffset fStop f.filesize f.mimetype f.boundary
      let list := list.set (i + 1) (.file f.filename fOffset fStop)
      let list := list.set i (respSetMemory head)
      let contentLength := addSize contentLength (sendBuf head).length
      let list := list.set (i + 2) (respSetMemory crlf)
      let contentLength := addSize contentLength (sendBuf crlf).length
      match _h : cutAt ','.toUInt8 range with
      | none => ⟨list, contentLength, true⟩
      | some (_, rest) => httpRangeComplexText f list rest contentLength
termination_by pRange.length
decreasing_by exact length_lt_of_cutAt _h

section RangeParts

variable {f : RangeFile} {list : List Response}

theorem httpRangeComplexText_full
    (hroom : respCapacity < list.length + 3) (pRange : Bytes) (contentLength : Nat) :
    httpRangeComplexText f list pRange contentLength =
      ⟨list ++ unfilledParts.take (respCapacity - list.length), contentLength, false⟩ := by
  rw [httpRangeComplexText]
  exact respPut_three_of_lt hroom (RangeResult.mk · contentLength false) _

/-- One call, up to the call for the rest. -/
theorem httpRangeComplexText_call
    (hroom : list.length + 3 ≤ respCapacity) (pRange : Bytes) (contentLength : Nat) :
    httpRangeComplexText f list pRange contentLength =
      match httpRangeSimple f.filesize
        (((cutAt ','.toUInt8 (pRange.take bufOff1)).map Prod.fst).getD (pRange.take bufOff1))
        contentLength with
      | none => ⟨list ++ unfilledParts, contentLength, false⟩
      | some (fOffset, fStop, contentLength) =>
          match cutAt ','.toUInt8 (pRange.take bufOff1) with
          | none =>
              ⟨list ++ rangeParts f fOffset fStop, rangeLength f fOffset fStop contentLength, true⟩
          | some (_, rest) =>
              httpRangeComplexText f (list ++ rangeParts f fOffset fStop) rest
                (rangeLength f fOffset fStop contentLength) := by
  conv_lhs => rw [httpRangeComplexText]
  refine (respPut_three_of_le hroom (RangeResult.mk · contentLength false) _).trans ?_
  dsimp only
  cases httpRangeSimple f.filesize
    (((cutAt ','.toUInt8 (pRange.take bufOff1)).map Prod.fst).getD (pRange.take bufOff1))
    contentLength with
  | none => rfl
  | some p =>
      obtain ⟨fOffset, fStop, contentLength⟩ := p
      dsimp only
      split
      · rename_i h
        rw [h]
        simp [unfilledParts, rangeParts, rangeLength]
      · rename_i h
        rw [h]
        simp [unfilledParts, rangeParts, rangeLength]

/-- The model on the pieces between the commas is the same function. -/
theorem httpRangeComplexText_eq
    (pRange : Bytes) (contentLength : Nat) :
    httpRangeComplex f list ((pRange.take bufOff1).splitOn ','.toUInt8) contentLength =
      ((httpRangeComplexText f list pRange contentLength).list,
        (httpRangeComplexText f list pRange contentLength).accepted) := by
  generalize hn : pRange.length = n
  induction n using Nat.strong_induction_on generalizing pRange list contentLength with
  | _ n ih =>
      obtain ⟨range, ranges, hsplit⟩ :=
        List.exists_cons_of_ne_nil (List.splitOn_ne_nil ','.toUInt8 (pRange.take bufOff1))
      rcases Nat.lt_or_ge respCapacity (list.length + 3) with hfull | hroom
      · rw [httpRangeComplexText_full hfull, hsplit, httpRangeComplex_full hfull]
        rfl
      rw [httpRangeComplexText_call hroom]
      cases hcut : cutAt ','.toUInt8 (pRange.take bufOff1) with
      | none =>
          rw [List.splitOn_eq_singleton (cutAt_eq_none.mp hcut), httpRangeComplex_cons hroom]
          dsimp only [Option.map_none, Option.getD_none]
          cases httpRangeSimple f.filesize (pRange.take bufOff1) contentLength <;> rfl
      | some p =>
          obtain ⟨u, rest⟩ := p
          obtain ⟨htake, hu⟩ := cutAt_eq_some.mp hcut
          have hrest : rest.take bufOff1 = rest := by
            have hlen := congrArg List.length htake
            rw [List.length_take, List.length_append, List.length_cons] at hlen
            exact List.take_of_length_le (by omega)
          have hpieces := List.splitOn_append_cons_self_of_not_mem hu rest
          rw [← htake] at hpieces
          rw [hpieces, httpRangeComplex_cons hroom]
          dsimp only [Option.map_some, Option.getD_some]
          cases httpRangeSimple f.filesize u contentLength with
          | none => rfl
          | some p =>
              obtain ⟨fOffset, fStop, contentLength⟩ := p
              dsimp only
              rw [← ih rest.length (hn ▸ length_lt_of_cutAt hcut) rest _ rfl, hrest]

/-! ## The parts -/

/-- The first and the last byte lie inside a file of the given size. -/
def InsideFile (filesize : Nat) (part : Nat × Nat) : Prop :=
  part.1 ≤ part.2 ∧ part.2 < filesize

/-- The bytes of the file in the parts. -/
def fileShare (parts : List (Nat × Nat)) : Nat :=
  (parts.map fun p => p.2 - p.1 + 1).sum

/-- The bytes of the text around a part. -/
def boundaryLength (f : RangeFile) (part : Nat × Nat) : Nat :=
  (sendBuf (http206BoundaryHeadText part.1 part.2 f.filesize f.mimetype f.boundary)).length +
    (sendBuf crlf).length

/-- The bytes of the text around the parts. -/
def textShare (f : RangeFile) (parts : List (Nat × Nat)) : Nat :=
  (parts.map (boundaryLength f)).sum

/-- The function completed these parts, left these behind them, and counted exactly the
bytes of the completed ones. -/
structure CompletesParts (f : RangeFile) (list : List Response) (contentLength : Nat)
    (r : RangeResult) (parts : List (Nat × Nat)) (unfilled : List Response) : Prop where
  inside : ∀ part ∈ parts, InsideFile f.filesize part
  list_eq : r.list = list ++ parts.flatMap (fun p => rangeParts f p.1 p.2) ++ unfilled
  contentLength_eq : r.contentLength = contentLength + fileShare parts + textShare f parts
  unfilled_prefix : unfilled <+: unfilledParts
  unfilled_eq_nil : r.ok = true → unfilled = []

theorem length_sendBuf_le
    (text : Bytes) :
    (sendBuf text).length ≤ bufOff1 := by
  refine (cString_length_le _).trans ?_
  rw [List.length_take]
  exact Nat.min_le_left _ _

/-- A range that is accepted is counted without a wrap-around. -/
theorem httpRangeSimple_inside
    {filesize contentLength fOffset fStop contentLength' : Nat} {range : Bytes}
    (hsize : filesize < 2 ^ 56) (hlen : contentLength < 2 ^ 63)
    (h : httpRangeSimple filesize range contentLength = some (fOffset, fStop, contentLength')) :
    InsideFile filesize (fOffset, fStop) ∧ contentLength' = contentLength + (fStop - fOffset + 1) := by
  obtain ⟨⟨hle, hlt⟩, heq⟩ := httpRangeSimple_eq_some h
  refine ⟨⟨hle, hlt⟩, ?_⟩
  rw [heq, addSize, Nat.mod_eq_of_lt (by omega)]
  omega

theorem boundaryLength_le
    (part : Nat × Nat) :
    boundaryLength f part ≤ 2046 :=
  Nat.add_le_add (length_sendBuf_le _) (length_sendBuf_le _)

theorem rangeLength_eq
    {fOffset fStop contentLength : Nat} (hlen : contentLength < 2 ^ 63) :
    rangeLength f fOffset fStop contentLength =
      contentLength + boundaryLength f (fOffset, fStop) := by
  have htext := boundaryLength_le (f := f) (fOffset, fStop)
  simp only [boundaryLength] at htext ⊢
  rw [rangeLength, addSize, addSize, Nat.mod_eq_of_lt (by omega), Nat.mod_eq_of_lt (by omega),
    Nat.add_assoc]

theorem completesParts_cons
    {contentLength contentLength' : Nat} {r : RangeResult} {part : Nat × Nat}
    {parts : List (Nat × Nat)} {unfilled : List Response}
    (hpart : InsideFile f.filesize part)
    (hlen : contentLength' = contentLength + (part.2 - part.1 + 1) + boundaryLength f part)
    (h : CompletesParts f (list ++ rangeParts f part.1 part.2) contentLength' r parts unfilled) :
    CompletesParts f list contentLength r (part :: parts) unfilled := by
  refine ⟨List.forall_mem_cons.mpr ⟨hpart, h.inside⟩, ?_, ?_, h.unfilled_prefix,
    h.unfilled_eq_nil⟩
  · rw [h.list_eq, List.flatMap_cons, List.append_assoc list]
  · have hlength := h.contentLength_eq
    simp only [fileShare, textShare, List.map_cons, List.sum_cons] at hlength ⊢
    omega

/-- Whatever the header is, the completed parts lie inside the file.  The queue is what keeps
the sum small: three more parts for each range. -/
theorem exists_completesParts
    (hsize : f.filesize < 2 ^ 56) (pRange : Bytes) {contentLength : Nat}
    (hlen : contentLength ≤ list.length * 2 ^ 56) :
    ∃ parts unfilled, CompletesParts f list contentLength
      (httpRangeComplexText f list pRange contentLength) parts unfilled := by
  generalize hn : pRange.length = n
  induction n using Nat.strong_induction_on generalizing pRange list contentLength with
  | _ n ih =>
      rcases Nat.lt_or_ge respCapacity (list.length + 3) with hfull | hroom
      · rw [httpRangeComplexText_full hfull]
        exact ⟨[], unfilledParts.take (respCapacity - list.length), by simp, by simp,
          by simp [fileShare, textShare], List.take_prefix _ _, by simp⟩
      rw [httpRangeComplexText_call hroom]
      simp only [respCapacity, respLimit] at hroom
      split
      · exact ⟨[], unfilledParts, by simp, by simp, by simp [fileShare, textShare],
          List.prefix_refl _, by simp⟩
      rename_i fOffset fStop contentLength₁ hrange
      have hsmall : contentLength < 2 ^ 63 := by omega
      obtain ⟨hinside, hfile⟩ := httpRangeSimple_inside hsize hsmall hrange
      have hpart : fStop - fOffset + 1 ≤ 2 ^ 56 := by
        have := hinside.2
        dsimp only at this
        omega
      have htext := boundaryLength_le (f := f) (fOffset, fStop)
      have hsum : rangeLength f fOffset fStop contentLength₁ =
          contentLength + (fStop - fOffset + 1) + boundaryLength f (fOffset, fStop) := by
        rw [rangeLength_eq (by omega), hfile]
      split
      · refine ⟨[(fOffset, fStop)], [], completesParts_cons hinside hsum ?_⟩
        exact ⟨by simp, by simp, by simp [fileShare, textShare], List.nil_prefix, fun _ => rfl⟩
      · rename_i rest hcut
        have hroom' : rangeLength f fOffset fStop contentLength₁ ≤
            (list ++ rangeParts f fOffset fStop).length * 2 ^ 56 := by
          have hthree : (rangeParts f fOffset fStop).length = 3 := rfl
          rw [List.length_append, hthree]
          omega
        obtain ⟨parts, unfilled, h⟩ :=
          ih rest.length (hn ▸ length_lt_of_cutAt hcut) rest hroom' rfl
        exact ⟨(fOffset, fStop) :: parts, unfilled, completesParts_cons hinside hsum h⟩

/-! ## Requests -/

section Requests

variable (host : Host) (n : TcpNode) (f : RangeFile) (lastmodified keepalive range : Bytes)

/-- What a request with this range gets: parts inside of the file that are counted as they
are, or the end of the connection. -/
structure RangesInside : Prop where
  simple : ∀ fOffset fStop contentLength,
    httpRangeSimple f.filesize range 0 = some (fOffset, fStop, contentLength) →
      InsideFile f.filesize (fOffset, fStop) ∧ contentLength = fileShare [(fOffset, fStop)]
  simple_refused : httpRangeSimple f.filesize range 0 = none →
    (httpReadSimple host n f.filename lastmodified f.filesize keepalive f.mimetype
      range).pipeline = .shutdown
  complex : ∃ parts unfilled,
    CompletesParts f (n.response ++ [.fromMemory, .fromMemory]) 0
      (httpRangeComplexText f (n.response ++ [.fromMemory, .fromMemory]) range 0) parts unfilled
  complex_refused :
    (httpRangeComplexText f (n.response ++ [.fromMemory, .fromMemory]) range 0).ok = false →
      (httpReadComplex host n f lastmodified keepalive range).pipeline = .shutdown

variable {host n f lastmodified keepalive range}

theorem httpReadSimple_refused
    (h : httpRangeSimple f.filesize range 0 = none) :
    (httpReadSimple host n f.filename lastmodified f.filesize keepalive f.mimetype
      range).pipeline = .shutdown := by
  simp only [httpReadSimple, h]
  split
  · rfl
  split
  · rfl
  · rfl

theorem httpReadComplex_refused
    (h : (httpRangeComplexText f (n.response ++ [.fromMemory, .fromMemory]) range 0).ok = false) :
    (httpReadComplex host n f lastmodified keepalive range).pipeline = .shutdown := by
  rcases Nat.lt_or_ge respCapacity (n.response.length + 2) with hfull | hroom
  · obtain ⟨list, heq⟩ := httpReadComplex_full hfull
    rw [heq]
    rfl
  have hranges := @httpRangeComplexText_eq f (n.response ++ [.fromMemory, .fromMemory]) range 0
  rw [RangeResult.accepted, h] at hranges
  rw [httpReadComplex_of_none hroom hranges]
  rfl

variable (host n lastmodified keepalive range)

/-- The offsets that `sendfile` gets lie inside the file. -/
theorem rangesInside
    (hsize : f.filesize < 2 ^ 56) :
    RangesInside host n f lastmodified keepalive range where
  simple fOffset fStop contentLength h := by
    obtain ⟨hinside, hlength⟩ := httpRangeSimple_inside hsize (by decide) h
    exact ⟨hinside, by simpa [fileShare] using hlength⟩
  simple_refused := httpReadSimple_refused
  complex := exists_completesParts hsize range (Nat.zero_le _)
  complex_refused := httpReadComplex_refused

/-- A file of ten bytes. -/
theorem rangesInside_ten :
    (10 : Nat) < 2 ^ 56 ∧ RangesInside tenHost nodePut
      ⟨cstr "/www/a", 10, cstr "text/plain", cstr "0123456789a"⟩ [] [] (cstr "0-0,9-99") :=
  ⟨by decide, rangesInside _ _ _ _ _ (by decide)⟩

end Requests
end RangeParts
end Torrentkino
