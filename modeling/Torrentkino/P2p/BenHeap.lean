import Torrentkino.P2p.BenNode

/-!
# Building bencode nodes

A program makes nodes with `ben_init` and fills them with the other constructors of
`p2p/ben.c`, in any order: a list may be put into a dictionary before anything is put into the
list.

* `BenHeap` are the nodes of a program, `BenHeap.Built` what its calls leave behind.
* `BenHeap.At` is the tree behind a pointer.
* `BenHeap.call_cases`: what a call does to the nodes.

**Result.** `BenHeap.encodesExactly`: the encoder is exact on all trees that were built so.
-/

namespace Torrentkino

open Memory Decimal CString

/-- `BEN_STR` and the other types. -/
inductive BenType where
  | str
  | int
  | list
  | dict
deriving DecidableEq, Repr

/-- The memory of a `BEN`, with the pointers in it. -/
inductive BenCell where
  | str (s : Option Bytes)
  | int (i : Int)
  | list (l : Option (List (Option Nat)))
  | dict (d : Option (List (Option Nat × Option Nat)))
deriving DecidableEq, Repr

/-- The nodes of a program.  A pointer is the place in the list. -/
abbrev BenHeap := List BenCell

namespace BenHeap

/-- `ben_init` makes this node. -/
def initCell : BenType → BenCell
  | .str => .str none
  | .int => .int 0
  | .list => .list (some [])
  | .dict => .dict (some [])

/-- `ben_dict`, or the text that `fail` exits with.  What is no node at all counts as a node
of the wrong type. -/
def benDict (h : BenHeap) (node key val : Option Nat) : Except String BenHeap :=
  match node with
  | none => .error "ben_dict( 1 )"
  | some node =>
  match h[node]? with
  | some (.dict none) => .error "ben_dict( 3 )"
  | some (.dict (some d)) =>
      match key with
      | none => .error "ben_dict( 4 )"
      | some key =>
      match h[key]? with
      | some (.str _) =>
          match val with
          | none => .error "ben_dict( 6 )"
          | some val =>
              if (d.length : Int) = longMax then .error "ben_dict( 7 )"
              else .ok (h.set node (.dict (some (d ++ [(some key, some val)]))))
      | _ => .error "ben_dict( 5 )"
  | _ => .error "ben_dict( 2 )"

/-- `ben_list` -/
def benList (h : BenHeap) (node val : Option Nat) : Except String BenHeap :=
  match node with
  | none => .error "ben_list( 1 )"
  | some node =>
  match h[node]? with
  | some (.list none) => .error "ben_list( 3 )"
  | some (.list (some l)) =>
      match val with
      | none => .error "ben_list( 4 )"
      | some val =>
          if (l.length : Int) = longMax then .error "ben_list( 5 )"
          else .ok (h.set node (.list (some (l ++ [some val]))))
  | _ => .error "ben_list( 2 )"

/-- `ben_str`, with the bytes that can be read behind the pointer. -/
def benStr (h : BenHeap) (node : Option Nat) (str : Option Bytes) (len : Int) :
    Except String BenHeap :=
  match node with
  | none => .error "ben_str() with NULL argument"
  | some node =>
  match h[node]? with
  | some (.str _) =>
      match str with
      | none => .error "ben_str() with NULL argument"
      | some str =>
          if len < 0 then .error "ben_str() with zero size"
          else .ok (h.set node (.str (some (str.take len.toNat))))
  | _ => .error "ben_str() with wrong type"

/-- `ben_int` -/
def benInt (h : BenHeap) (node : Option Nat) (i : Int) : Except String BenHeap :=
  match node with
  | none => .error "ben_int( 1 )"
  | some node =>
  match h[node]? with
  | some (.int _) => .ok (h.set node (.int i))
  | _ => .error "ben_int( 2 )"

/-- The calls of the constructors. -/
inductive Call where
  | init (type : BenType)
  | dict (node key val : Option Nat)
  | list (node val : Option Nat)
  | str (node : Option Nat) (str : Option Bytes) (len : Int)
  | int (node : Option Nat) (i : Int)

/-- The numbers have the type of the parameter, and the bytes can be read. -/
def Call.Typed : Call → Prop
  | .str _ s len => IsLong len ∧ ∀ bytes ∈ s, len ≤ bytes.length
  | .int _ i => IsLong i
  | _ => True

/-- One call. -/
def call (h : BenHeap) : Call → Except String BenHeap
  | .init type => .ok (h ++ [initCell type])
  | .dict node key val => benDict h node key val
  | .list node val => benList h node val
  | .str node str len => benStr h node str len
  | .int node i => benInt h node i

/-- What calls in some order leave behind, when none of them fails. -/
inductive Built : BenHeap → Prop
  | nil : Built []
  | call {h h' : BenHeap} (hbuilt : Built h) (c : Call) (htyped : c.Typed)
      (hcall : call h c = .ok h') : Built h'

mutual

/-- The tree at a pointer. -/
def At (h : BenHeap) : Nat → BenNode → Prop
  | a, .str s => h[a]? = some (.str s)
  | a, .int i => h[a]? = some (.int i)
  | a, .list none => h[a]? = some (.list none)
  | a, .list (some vs) => ∃ l, h[a]? = some (.list (some l)) ∧ ListAt h l vs
  | a, .dict none => h[a]? = some (.dict none)
  | a, .dict (some vs) => ∃ d, h[a]? = some (.dict (some d)) ∧ DictAt h d vs

def MemberAt (h : BenHeap) : Option Nat → Option BenNode → Prop
  | none, none => True
  | some a, some v => At h a v
  | _, _ => False

def ListAt (h : BenHeap) : List (Option Nat) → List (Option BenNode) → Prop
  | [], [] => True
  | p :: l, v :: vs => MemberAt h p v ∧ ListAt h l vs
  | _, _ => False

def DictAt (h : BenHeap) :
    List (Option Nat × Option Nat) → List (Option BenNode × Option BenNode) → Prop
  | [], [] => True
  | (p, q) :: d, (k, v) :: vs => MemberAt h p k ∧ MemberAt h q v ∧ DictAt h d vs
  | _, _ => False

end

end BenHeap

namespace BenHeap

/-! ### What the constructors keep -/

/-- The pointer is to a string node. -/
def IsStr (h : BenHeap) (p : Option Nat) : Prop :=
  ∃ k s, p = some k ∧ h[k]? = some (.str s)

/-- What the constructors put into a node. -/
def CellBuilt (h : BenHeap) : BenCell → Prop
  | .str _ => True
  | .int i => IsLong i
  | .list none => False
  | .list (some l) => ∀ p ∈ l, p ≠ none
  | .dict none => False
  | .dict (some d) => ∀ p ∈ d, IsStr h p.1 ∧ p.2 ≠ none

/-- All nodes are of this kind. -/
def WellBuilt (h : BenHeap) : Prop :=
  ∀ (a : Nat) (cell : BenCell), h[a]? = some cell → CellBuilt h cell

/-- What a constructor does to a node. -/
inductive Fills (h : BenHeap) : BenCell → BenCell → Prop
  | dict {d : List (Option Nat × Option Nat)} {key val : Nat} (hkey : IsStr h (some key)) :
      Fills h (.dict (some d)) (.dict (some (d ++ [(some key, some val)])))
  | list {l : List (Option Nat)} {val : Nat} :
      Fills h (.list (some l)) (.list (some (l ++ [some val])))
  | str {s : Option Bytes} {bytes : Bytes} : Fills h (.str s) (.str (some bytes))
  | int {i j : Int} (hj : IsLong j) : Fills h (.int i) (.int j)

/-- The call has filled one node. -/
def FillsOne (h h' : BenHeap) : Prop :=
  ∃ (a : Nat) (cell cell' : BenCell), h[a]? = some cell ∧ Fills h cell cell' ∧
    h' = h.set a cell'

theorem fillsOne_benDict
    {h h' : BenHeap} {node key val : Option Nat} (hcall : benDict h node key val = .ok h') :
    FillsOne h h' := by
  unfold benDict at hcall
  split at hcall
  · cases hcall
  split at hcall
  · cases hcall
  · rename_i a _ d ha
    split at hcall
    · cases hcall
    split at hcall
    · rename_i k _ s hk
      split at hcall
      · cases hcall
      split at hcall
      · cases hcall
      · cases hcall
        exact ⟨a, _, _, ha, .dict ⟨k, s, rfl, hk⟩, rfl⟩
    · cases hcall
  · cases hcall

theorem fillsOne_benList
    {h h' : BenHeap} {node val : Option Nat} (hcall : benList h node val = .ok h') :
    FillsOne h h' := by
  unfold benList at hcall
  split at hcall
  · cases hcall
  split at hcall
  · cases hcall
  · rename_i a _ l ha
    split at hcall
    · cases hcall
    split at hcall
    · cases hcall
    · cases hcall
      exact ⟨a, _, _, ha, .list, rfl⟩
  · cases hcall

theorem fillsOne_benStr
    {h h' : BenHeap} {node : Option Nat} {s : Option Bytes} {len : Int}
    (hcall : benStr h node s len = .ok h') :
    FillsOne h h' := by
  unfold benStr at hcall
  split at hcall
  · cases hcall
  split at hcall
  · rename_i a _ s ha
    split at hcall
    · cases hcall
    split at hcall
    · cases hcall
    · cases hcall
      exact ⟨a, _, _, ha, .str, rfl⟩
  · cases hcall

theorem fillsOne_benInt
    {h h' : BenHeap} {node : Option Nat} {i : Int} (hi : IsLong i)
    (hcall : benInt h node i = .ok h') :
    FillsOne h h' := by
  unfold benInt at hcall
  split at hcall
  · cases hcall
  split at hcall
  · rename_i a _ j ha
    cases hcall
    exact ⟨a, _, _, ha, .int hi, rfl⟩
  · cases hcall

/-- A call makes one node or fills one. -/
theorem call_cases
    {h h' : BenHeap} {c : Call} (htyped : c.Typed) (hcall : call h c = .ok h') :
    (∃ type, h' = h ++ [initCell type]) ∨ FillsOne h h' := by
  cases c with
  | init type =>
      cases hcall
      exact .inl ⟨type, rfl⟩
  | dict node key val =>
      exact .inr (fillsOne_benDict hcall)
  | list node val =>
      exact .inr (fillsOne_benList hcall)
  | str node s len =>
      exact .inr (fillsOne_benStr hcall)
  | int node i =>
      exact .inr (fillsOne_benInt htyped hcall)

/-- String nodes stay string nodes. -/
theorem IsStr.append
    {h : BenHeap} {p : Option Nat} (hp : IsStr h p) (cell : BenCell) :
    IsStr (h ++ [cell]) p := by
  obtain ⟨k, s, rfl, hk⟩ := hp
  have hlt := (List.getElem?_eq_some_iff.mp hk).1
  exact ⟨k, s, rfl, by rw [List.getElem?_append_left hlt, hk]⟩

theorem IsStr.set
    {h : BenHeap} {p : Option Nat} (hp : IsStr h p) {a : Nat} {cell cell' : BenCell}
    (ha : h[a]? = some cell) (hfills : Fills h cell cell') :
    IsStr (h.set a cell') p := by
  obtain ⟨k, s, rfl, hk⟩ := hp
  by_cases hak : a = k
  · subst hak
    rw [ha] at hk
    cases hk
    cases hfills with
    | str =>
        have hlt := (List.getElem?_eq_some_iff.mp ha).1
        exact ⟨a, _, rfl, List.getElem?_set_self hlt⟩
  · exact ⟨k, s, rfl, by rw [List.getElem?_set_ne hak, hk]⟩

theorem CellBuilt.mono
    {h h' : BenHeap} (hstr : ∀ p, IsStr h p → IsStr h' p) {cell : BenCell}
    (hcell : CellBuilt h cell) :
    CellBuilt h' cell := by
  match cell, hcell with
  | .str _, _ => trivial
  | .int _, hi => exact hi
  | .list (some _), hl => exact hl
  | .dict (some _), hd => exact fun p hp => ⟨hstr _ (hd p hp).1, (hd p hp).2⟩

theorem Fills.cellBuilt
    {h : BenHeap} {cell cell' : BenCell} (hfills : Fills h cell cell')
    (hcell : CellBuilt h cell) :
    CellBuilt h cell' := by
  cases hfills with
  | dict hkey =>
      intro p hp
      rcases List.mem_append.mp hp with hp | hp
      · exact hcell p hp
      · obtain rfl := List.mem_singleton.mp hp
        exact ⟨hkey, Option.some_ne_none _⟩
  | list =>
      intro p hp
      rcases List.mem_append.mp hp with hp | hp
      · exact hcell p hp
      · obtain rfl := List.mem_singleton.mp hp
        exact Option.some_ne_none _
  | str => trivial
  | int hj => exact hj

theorem wellBuilt_call
    {h h' : BenHeap} {c : Call} (hwell : WellBuilt h) (htyped : c.Typed)
    (hcall : call h c = .ok h') :
    WellBuilt h' := by
  intro b cell hb
  obtain ⟨type, rfl⟩ | ⟨a, old, new, ha, hfills, rfl⟩ := call_cases htyped hcall
  · have hmono : ∀ p, IsStr h p → IsStr (h ++ [initCell type]) p := fun p hp => hp.append _
    rcases Nat.lt_or_ge b h.length with hlt | hge
    · rw [List.getElem?_append_left hlt] at hb
      exact (hwell b cell hb).mono hmono
    · rw [List.getElem?_append_right hge] at hb
      obtain ⟨-, rfl⟩ := List.getElem?_eq_some_iff.mp hb
      rw [List.getElem_singleton]
      cases type with
      | str => trivial
      | int => exact (by decide : IsLong 0)
      | list => exact List.forall_mem_nil _
      | dict => exact List.forall_mem_nil _
  · have hmono : ∀ p, IsStr h p → IsStr (h.set a new) p := fun p hp => hp.set ha hfills
    by_cases hab : a = b
    · subst hab
      have hlt := (List.getElem?_eq_some_iff.mp ha).1
      rw [List.getElem?_set_self hlt, Option.some.injEq] at hb
      subst hb
      exact (hfills.cellBuilt (hwell a old ha)).mono hmono
    · rw [List.getElem?_set_ne hab] at hb
      exact (hwell b cell hb).mono hmono

theorem Built.wellBuilt
    {h : BenHeap} (hbuilt : Built h) :
    WellBuilt h := by
  induction hbuilt with
  | nil =>
      intro a cell ha
      simp at ha
  | call _ c htyped hcall ih => exact wellBuilt_call ih htyped hcall

/-! ### The trees -/

theorem eq_str_of_at
    {h : BenHeap} {k : Nat} {s : Option Bytes} (hk : h[k]? = some (.str s)) :
    ∀ {node : BenNode}, At h k node → node = .str s
  | .str s', hat => by
      rw [At, hk] at hat
      cases hat
      rfl
  | .int _, hat => by
      rw [At, hk] at hat
      cases hat
  | .list none, hat => by
      rw [At, hk] at hat
      cases hat
  | .list (some _), ⟨_, hat, _⟩ => by
      rw [hk] at hat
      cases hat
  | .dict none, hat => by
      rw [At, hk] at hat
      cases hat
  | .dict (some _), ⟨_, hat, _⟩ => by
      rw [hk] at hat
      cases hat

mutual

/-- No null pointer is left in a tree whose strings were filled. -/
theorem complete_of_at
    {h : BenHeap} (hwell : WellBuilt h) :
    ∀ (node : BenNode) (a : Nat), At h a node → node.Filled → node.Complete
  | .str _, _, _, hfilled => hfilled
  | .int i, a, hat, _ => hwell a (.int i) hat
  | .list none, a, hat, _ => (hwell a (.list none) hat).elim
  | .list (some vs), a, ⟨l, ha, hl⟩, hfilled =>
      completeList_of_at hwell vs l (hwell a (.list (some l)) ha) hl hfilled
  | .dict none, a, hat, _ => (hwell a (.dict none) hat).elim
  | .dict (some vs), a, ⟨d, ha, hd⟩, hfilled =>
      completeDict_of_at hwell vs d (hwell a (.dict (some d)) ha) hd hfilled

theorem completeList_of_at
    {h : BenHeap} (hwell : WellBuilt h) :
    ∀ (vs : List (Option BenNode)) (l : List (Option Nat)), (∀ p ∈ l, p ≠ none) →
      ListAt h l vs → BenNode.FilledList vs → BenNode.CompleteList vs
  | [], _, _, _, _ => trivial
  | _ :: _, [], _, hat, _ => hat.elim
  | none :: _, some _ :: _, _, hat, _ => hat.1.elim
  | _ :: _, none :: _, hne, _, _ => (hne none (.head _) rfl).elim
  | some v :: vs, some a :: l, hne, ⟨hv, hvs⟩, ⟨hfv, hfvs⟩ =>
      ⟨complete_of_at hwell v a hv hfv,
        completeList_of_at hwell vs l (fun p hp => hne p (.tail _ hp)) hvs hfvs⟩

theorem completeDict_of_at
    {h : BenHeap} (hwell : WellBuilt h) :
    ∀ (vs : List (Option BenNode × Option BenNode)) (d : List (Option Nat × Option Nat)),
      (∀ p ∈ d, IsStr h p.1 ∧ p.2 ≠ none) → DictAt h d vs → BenNode.FilledDict vs →
        BenNode.CompleteDict vs
  | [], _, _, _, _ => trivial
  | _ :: _, [], _, hat, _ => hat.elim
  | (_, _) :: _, (none, _) :: _, hkeys, _, _ => by
      obtain ⟨_, _, hk, -⟩ := (hkeys _ (.head _)).1
      cases hk
  | (_, _) :: _, (_, none) :: _, hkeys, _, _ => ((hkeys _ (.head _)).2 rfl).elim
  | (none, _) :: _, (some _, some _) :: _, _, hat, _ => hat.1.elim
  | (_, none) :: _, (some _, some _) :: _, _, hat, _ => hat.2.1.elim
  | (some k, some v) :: vs, (some a, some b) :: d, hkeys, ⟨hk, hv, hvs⟩, ⟨hfk, hfv, hfvs⟩ => by
      obtain ⟨_, s, heq, ha⟩ := (hkeys _ (.head _)).1
      cases heq
      obtain rfl := eq_str_of_at ha hk
      have hrest := completeDict_of_at hwell vs d (fun p hp => hkeys p (.tail _ hp)) hvs hfvs
      cases s with
      | none => exact (hfk rfl).elim
      | some s => exact ⟨complete_of_at hwell v b hv hfv, hrest⟩

end

variable {h : BenHeap} {a : Nat} {node : BenNode}

/-- On every tree that the constructors built the size is the number of bytes that are
written, none of them lies behind the allocation, and they are the bytes of the tree. -/
theorem encodesExactly
    (hbuilt : Built h) (hat : At h a node) (hfilled : node.Filled)
    (hsize : benEncSize node.toBen < 2 ^ 63) :
    BenNode.EncodesExactly node (benEncRec node.toBen) :=
  BenNode.encodesExactly_of_complete (complete_of_at hbuilt.wellBuilt node a hat hfilled) hsize

/-- The list of an integer, which is filled after it was put there. -/
theorem encodesExactly_list :
    BenNode.EncodesExactly (.list (some [some (.int (-10))])) (cstr "li-10ee") :=
  encodesExactly (a := 0) (h := [.list (some [some 1]), .int (-10)])
    ((((Built.nil.call (.init .list) trivial rfl).call (.init .int) trivial rfl).call
      (.list (some 0) (some 1)) trivial rfl).call (.int (some 1) (-10))
      (show IsLong (-10) by decide) rfl)
    ⟨[some 1], rfl, rfl, trivial⟩ ⟨trivial, trivial⟩ (by decide +kernel)

end BenHeap
end Torrentkino
