import Mathlib.Data.List.Basic
import Torrentkino.Lib.Memory

/-!
# DNS messages on the wire

Names, questions and resource records with addresses and SRV data, their wire
form, and a parser for it.  A name is a list of labels with the limits that the
format sets, so a name that has no wire form cannot be built.  The parser takes
no compressed names.

`Reads p w a` says that the parser `p` makes `a` of the bytes `w`, whatever follows
them.  It composes like the parsers do.

**Results.**
* `parse_wire`: the wire form of a message is read back.
* `wireName_inj`: different lists of labels have different wire forms.
-/

namespace Torrentkino
namespace DnsWire

open Memory

/-! ## Parsers -/

/-- A parser of bytes. -/
abbrev Parser (α : Type) : Type :=
  StateT Bytes Option α

/-- The parser makes `a` of these bytes and leaves what follows them. -/
def Reads {α : Type} (p : Parser α) (w : Bytes) (a : α) : Prop :=
  ∀ rest, p.run (w ++ rest) = some (a, rest)

section Reads

variable {α β : Type} {p : Parser α} {w w' : Bytes} {a : α}

theorem Reads.pure (a : α) : Reads (Pure.pure a) [] a :=
  fun _ => rfl

theorem Reads.bind {f : α → Parser β} {b : β} (h : Reads p w a) (h' : Reads (f a) w' b) :
    Reads (p >>= f) (w ++ w') b := by
  intro rest
  rw [List.append_assoc, StateT.run_bind, h (w' ++ rest)]
  exact h' rest

/-- The last step of a parser computes its result. -/
theorem Reads.bind_pure {f : α → β} (h : Reads p w a) :
    Reads (p >>= fun a => Pure.pure (f a)) w (f a) := by
  have hbind : Reads (p >>= fun a => Pure.pure (f a)) (w ++ []) (f a) := h.bind (.pure _)
  rwa [List.append_nil] at hbind

/-- `n` bytes. -/
def takeBytes (n : Nat) : Parser Bytes :=
  fun b => if n ≤ b.length then some (b.take n, b.drop n) else none

theorem reads_takeBytes {n : Nat} (h : w.length = n) : Reads (takeBytes n) w w := by
  intro rest
  change (if n ≤ (w ++ rest).length then _ else _) = _
  rw [if_pos (by rw [List.length_append]; omega), ← h, List.take_left, List.drop_left]

/-- A result that may not exist. -/
def ofOption (o : Option α) : Parser α :=
  fun b => o.map fun a => (a, b)

theorem reads_ofOption {o : Option α} (h : o = some a) : Reads (ofOption o) [] a := by
  intro rest
  rw [h]
  rfl

/-- One byte. -/
def byte : Parser UInt8
  | [] => none
  | c :: b => some (c, b)

theorem reads_byte (c : UInt8) : Reads byte [c] c :=
  fun _ => rfl

/-- `n` times. -/
def times (p : Parser α) : Nat → Parser (List α)
  | 0 => pure []
  | n + 1 => do
      let a ← p
      let as ← times p n
      pure (a :: as)

theorem reads_times
    {wire : α → Bytes} (as : List α) (h : ∀ a ∈ as, Reads p (wire a) a) :
    Reads (times p as.length) (as.flatMap wire) as := by
  induction as with
  | nil =>
      exact .pure []
  | cons a as ih =>
      rw [List.flatMap_cons, List.length_cons, times]
      refine (h a List.mem_cons_self).bind ?_
      exact (ih fun a ha => h a (List.mem_cons_of_mem _ ha)).bind_pure

end Reads

/-! ## Numbers -/

/-- Two bytes, high byte first. -/
def wire16 (n : UInt16) : Bytes :=
  [(n >>> 8).toUInt8, n.toUInt8]

/-- Four bytes, high byte first. -/
def wire32 (n : UInt32) : Bytes :=
  wire16 (n >>> 16).toUInt16 ++ wire16 n.toUInt16

/-- The number of two bytes. -/
def word16 : Parser UInt16 := do
  let hi ← byte
  let lo ← byte
  pure (UInt16.ofNat (hi.toNat * 256 + lo.toNat))

/-- The number of four bytes. -/
def word32 : Parser UInt32 := do
  let hi ← word16
  let lo ← word16
  pure (UInt32.ofNat (hi.toNat * 65536 + lo.toNat))

theorem reads_word16 (n : UInt16) : Reads word16 (wire16 n) n := by
  have hlt := n.toNat_lt
  have hn : UInt16.ofNat ((n >>> 8).toUInt8.toNat * 256 + n.toUInt8.toNat) = n := by
    rw [← UInt16.toNat_inj]
    simp [Nat.shiftRight_eq_div_pow]
    omega
  have h : Reads word16 (wire16 n) _ :=
    (reads_byte (n >>> 8).toUInt8).bind (reads_byte n.toUInt8).bind_pure
  rwa [hn] at h

theorem reads_word32 (n : UInt32) : Reads word32 (wire32 n) n := by
  have hlt := n.toNat_lt
  have hn : UInt32.ofNat ((n >>> 16).toUInt16.toNat * 65536 + n.toUInt16.toNat) = n := by
    rw [← UInt32.toNat_inj]
    simp [Nat.shiftRight_eq_div_pow]
    omega
  have h : Reads word32 (wire32 n) _ :=
    (reads_word16 (n >>> 16).toUInt16).bind (reads_word16 n.toUInt16).bind_pure
  rwa [hn] at h

/-! ## Names -/

/-- Each label behind its length, and a zero byte at the end. -/
def wireName : List Bytes → Bytes
  | [] => [0]
  | l :: ls => UInt8.ofNat l.length :: l ++ wireName ls

/-- Labels with dots between them. -/
def dotted (ls : List Bytes) : Bytes :=
  ['.'.toUInt8].intercalate ls

/-- A domain name: a label has 1 to 63 bytes, and the wire form at most 255. -/
structure Name where
  labels : List Bytes
  label_length : ∀ l ∈ labels, 1 ≤ l.length ∧ l.length ≤ 63
  length_le : (wireName labels).length ≤ 255
deriving DecidableEq

/-- The labels up to the zero byte. -/
def labels : Nat → Parser (List Bytes)
  | 0 => fun _ => none
  | fuel + 1 => do
      let c ← byte
      if c = 0 then pure []
      else do
        let l ← takeBytes c.toNat
        let ls ← labels fuel
        pure (l :: ls)

/-- A name of these labels, if there is one. -/
def Name.ofLabels? (ls : List Bytes) : Option Name :=
  if h : (∀ l ∈ ls, 1 ≤ l.length ∧ l.length ≤ 63) ∧ (wireName ls).length ≤ 255 then
    some ⟨ls, h.1, h.2⟩
  else none

/-- A name; it has fewer than 255 labels. -/
def name : Parser Name := do
  let ls ← labels 255
  ofOption (Name.ofLabels? ls)

theorem toNat_ofNat_length {l : Bytes} (h : l.length < 256) :
    (UInt8.ofNat l.length).toNat = l.length := by
  simpa using Nat.mod_eq_of_lt h

theorem lt_length_wireName (ls : List Bytes) : ls.length < (wireName ls).length := by
  induction ls with
  | nil =>
      simp [wireName]
  | cons l ls ih =>
      simp only [wireName, List.length_cons, List.length_append]
      omega

theorem reads_labels
    {ls : List Bytes} (hls : ∀ l ∈ ls, 1 ≤ l.length ∧ l.length ≤ 63) {fuel : Nat}
    (hfuel : ls.length < fuel) :
    Reads (labels fuel) (wireName ls) ls := by
  induction ls generalizing fuel with
  | nil =>
      obtain ⟨fuel, rfl⟩ := Nat.exists_eq_add_of_lt hfuel
      exact fun _ => rfl
  | cons l ls ih =>
      cases fuel with
      | zero =>
          cases hfuel
      | succ fuel =>
          obtain ⟨hl, hls⟩ := List.forall_mem_cons.mp hls
          have hlen : (UInt8.ofNat l.length).toNat = l.length := toNat_ofNat_length (by omega)
          have hne : UInt8.ofNat l.length ≠ 0 := by
            intro heq
            rw [heq] at hlen
            change 0 = l.length at hlen
            omega
          have hrest : Reads (labels fuel) (wireName ls) ls :=
            ih hls (Nat.lt_of_succ_lt_succ hfuel)
          refine Reads.bind (w := [UInt8.ofNat l.length]) (reads_byte _) ?_
          rw [if_neg hne]
          exact (reads_takeBytes hlen.symm).bind hrest.bind_pure

theorem reads_name (n : Name) : Reads name (wireName n.labels) n := by
  have hfuel : n.labels.length < 255 :=
    Nat.lt_of_lt_of_le (lt_length_wireName n.labels) n.length_le
  have hname : Name.ofLabels? n.labels = some n := by
    rw [Name.ofLabels?, dif_pos ⟨n.label_length, n.length_le⟩]
  have h : Reads name (wireName n.labels ++ []) n :=
    (reads_labels n.label_length hfuel).bind (reads_ofOption hname)
  rwa [List.append_nil] at h

/-- Labels whose lengths fit a byte are determined by their wire form. -/
theorem wireName_inj
    {ls ls' : List Bytes} (hls : ∀ l ∈ ls, l.length < 256) (hls' : ∀ l ∈ ls', l.length < 256)
    (h : wireName ls = wireName ls') :
    ls = ls' := by
  have hlen : ∀ l ls, (wireName (l :: ls)).length ≠ 1 := by
    intro l ls
    have := lt_length_wireName ls
    simp only [wireName, List.length_append, List.length_cons]
    omega
  induction ls generalizing ls' with
  | nil =>
      cases ls' with
      | nil =>
          rfl
      | cons l' ls' =>
          exact absurd (congrArg List.length h).symm (hlen l' ls')
  | cons l ls ih =>
      cases ls' with
      | nil =>
          exact absurd (congrArg List.length h) (hlen l ls)
      | cons l' ls' =>
          obtain ⟨hl, hrest⟩ := List.forall_mem_cons.mp hls
          obtain ⟨hl', hrest'⟩ := List.forall_mem_cons.mp hls'
          simp only [wireName, List.cons_append, List.cons.injEq] at h
          have hsame : l.length = l'.length := by
            rw [← toNat_ofNat_length hl, ← toNat_ofNat_length hl', h.1]
          obtain ⟨hlabel, hwire⟩ := List.append_inj h.2 hsame
          rw [hlabel, ih hrest hrest' hwire]

/-! ## Questions and records -/

/-- The name that is asked for, and the type and the class of the records. -/
structure Question where
  name : Name
  type : UInt16
  class' : UInt16
deriving DecidableEq

/-- The bytes of a question. -/
def Question.wire (q : Question) : Bytes :=
  wireName q.name.labels ++ (wire16 q.type ++ wire16 q.class')

/-- A question. -/
def question : Parser Question := do
  let name ← name
  let type ← word16
  let class' ← word16
  pure ⟨name, type, class'⟩

theorem reads_question (q : Question) : Reads question q.wire q :=
  (reads_name q.name).bind ((reads_word16 q.type).bind (reads_word16 q.class').bind_pure)

/-- The data of a record: an IPv4 or IPv6 address, or where a service is. -/
inductive RData where
  | a (addr : Bytes) (length_eq : addr.length = 4)
  | aaaa (addr : Bytes) (length_eq : addr.length = 16)
  | srv (priority weight port : UInt16) (target : Name)
deriving DecidableEq

namespace RData

/-- The number of the record type. -/
def type : RData → UInt16
  | a _ _ => 1
  | aaaa _ _ => 28
  | srv _ _ _ _ => 33

/-- The bytes of the data. -/
def wire : RData → Bytes
  | a addr _ => addr
  | aaaa addr _ => addr
  | srv priority weight port target =>
      wire16 priority ++ (wire16 weight ++ (wire16 port ++ wireName target.labels))

theorem length_wire_lt (d : RData) : d.wire.length < 65536 := by
  cases d with
  | a addr h =>
      simp [wire, h]
  | aaaa addr h =>
      simp [wire, h]
  | srv priority weight port target =>
      have := target.length_le
      simp only [wire, wire16, List.length_append, List.length_cons, List.length_nil]
      omega

end RData

/-- The data of an SRV record. -/
def srvData : Parser RData := do
  let priority ← word16
  let weight ← word16
  let port ← word16
  let target ← name
  pure (.srv priority weight port target)

/-- The data of a record of a type, which must be the whole of the bytes. -/
def rdataOf (type : UInt16) (d : Bytes) : Option RData :=
  if type = 1 then
    if h : d.length = 4 then some (.a d h) else none
  else if type = 28 then
    if h : d.length = 16 then some (.aaaa d h) else none
  else if type = 33 then
    match srvData.run d with
    | some (rdata, []) => some rdata
    | _ => none
  else none

theorem rdataOf_wire (d : RData) : rdataOf d.type d.wire = some d := by
  cases d with
  | a addr h =>
      simp [rdataOf, RData.type, RData.wire, h]
  | aaaa addr h =>
      simp [rdataOf, RData.type, RData.wire, h]
  | srv priority weight port target =>
      have hreads : Reads srvData (RData.srv priority weight port target).wire
          (.srv priority weight port target) :=
        (reads_word16 priority).bind ((reads_word16 weight).bind
          ((reads_word16 port).bind (reads_name target).bind_pure))
      have hrun := hreads []
      rw [List.append_nil] at hrun
      simp [rdataOf, RData.type, hrun]

/-- A resource record. -/
structure Record where
  name : Name
  class' : UInt16
  ttl : UInt32
  data : RData
deriving DecidableEq

/-- The bytes of a record. -/
def Record.wire (r : Record) : Bytes :=
  wireName r.name.labels ++ (wire16 r.data.type ++ (wire16 r.class' ++ (wire32 r.ttl ++
    (wire16 (UInt16.ofNat r.data.wire.length) ++ r.data.wire))))

/-- A resource record. -/
def record : Parser Record := do
  let name ← name
  let type ← word16
  let class' ← word16
  let ttl ← word32
  let length ← word16
  let data ← takeBytes length.toNat
  let rdata ← ofOption (rdataOf type data)
  pure ⟨name, class', ttl, rdata⟩

theorem reads_record (r : Record) : Reads record r.wire r := by
  have hlen : (UInt16.ofNat r.data.wire.length).toNat = r.data.wire.length := by
    simpa using Nat.mod_eq_of_lt r.data.length_wire_lt
  have hdata : Reads (takeBytes (UInt16.ofNat r.data.wire.length).toNat >>= fun data => do
      let rdata ← ofOption (rdataOf r.data.type data)
      pure (⟨r.name, r.class', r.ttl, rdata⟩ : Record)) (r.data.wire ++ []) r :=
    (reads_takeBytes hlen.symm).bind (reads_ofOption (rdataOf_wire r.data)).bind_pure
  rw [List.append_nil] at hdata
  exact (reads_name r.name).bind ((reads_word16 r.data.type).bind ((reads_word16 r.class').bind
    ((reads_word32 r.ttl).bind ((reads_word16 _).bind hdata))))

/-! ## Messages -/

/-- A message with its sections. -/
structure Message where
  id : UInt16
  flags : UInt16
  questions : List Question
  answers : List Record
  authority : List Record
  additional : List Record
deriving DecidableEq

namespace Message

/-- The QR bit: the message is a response. -/
def qr (m : Message) : Bool :=
  m.flags &&& 0x8000 ≠ 0

/-- RCODE: 0 means that there was no error. -/
def rcode (m : Message) : UInt16 :=
  m.flags &&& 0x000F

/-- The bytes of a message: id, flags, the number of entries of each section, and the
sections. -/
def wire (m : Message) : Bytes :=
  wire16 m.id ++ (wire16 m.flags ++ (wire16 (UInt16.ofNat m.questions.length) ++
    (wire16 (UInt16.ofNat m.answers.length) ++ (wire16 (UInt16.ofNat m.authority.length) ++
      (wire16 (UInt16.ofNat m.additional.length) ++
        (m.questions.flatMap Question.wire ++ (m.answers.flatMap Record.wire ++
          (m.authority.flatMap Record.wire ++ m.additional.flatMap Record.wire))))))))

end Message

/-- A message. -/
def message : Parser Message := do
  let id ← word16
  let flags ← word16
  let qdCount ← word16
  let anCount ← word16
  let nsCount ← word16
  let arCount ← word16
  let questions ← times question qdCount.toNat
  let answers ← times record anCount.toNat
  let authority ← times record nsCount.toNat
  let additional ← times record arCount.toNat
  pure ⟨id, flags, questions, answers, authority, additional⟩

/-- The message that the bytes are, the whole of them. -/
def parse (b : Bytes) : Option Message :=
  match message.run b with
  | some (m, []) => some m
  | _ => none

theorem reads_section
    {α : Type} {p : Parser α} {wire : α → Bytes} (hp : ∀ a, Reads p (wire a) a) (as : List α)
    (h : as.length < 65536) :
    Reads (times p (UInt16.ofNat as.length).toNat) (as.flatMap wire) as := by
  have hlen : (UInt16.ofNat as.length).toNat = as.length := by
    simpa using Nat.mod_eq_of_lt h
  rw [hlen]
  exact reads_times as fun a _ => hp a

/-- A message whose sections can be counted is read back. -/
theorem parse_wire
    (m : Message) (hquestions : m.questions.length < 65536) (hanswers : m.answers.length < 65536)
    (hauthority : m.authority.length < 65536) (hadditional : m.additional.length < 65536) :
    parse m.wire = some m := by
  have hreads : Reads message m.wire m :=
    (reads_word16 m.id).bind ((reads_word16 m.flags).bind ((reads_word16 _).bind
      ((reads_word16 _).bind ((reads_word16 _).bind ((reads_word16 _).bind
        ((reads_section reads_question m.questions hquestions).bind
          ((reads_section reads_record m.answers hanswers).bind
            ((reads_section reads_record m.authority hauthority).bind
              (reads_section reads_record m.additional hadditional).bind_pure))))))))
  have hrun := hreads []
  rw [List.append_nil] at hrun
  rw [parse, hrun]

end DnsWire
end Torrentkino
