import Torrentkino.Shr.Config

/-!
# Bencode objects

The `BEN` tree of `p2p/ben.c` with its constructors, its lookups and the
encoder.  A node is a string, an integer, a list or a dictionary.  The checks
of `ben_dict` (a key is always a string node) and the rule that a string node
is filled by `ben_str` before it is used are part of the type: a dictionary
entry carries the bytes of its key.  `LIST` is taken as the sequence it
represents, and a `LONG` count as a natural number.
-/

namespace Torrentkino

open Memory Decimal

/-- A `BEN` node. -/
inductive Ben where
  | str (s : Bytes)
  | int (i : Int)
  | list (l : List Ben)
  | dict (d : List (Bytes × Ben))
deriving Repr

namespace Ben

mutual

/-- Decidable equality of nodes. -/
def decEq : (a b : Ben) → Decidable (a = b)
  | str s, str s' =>
      if h : s = s' then isTrue (by rw [h]) else isFalse (by simpa using h)
  | int i, int i' =>
      if h : i = i' then isTrue (by rw [h]) else isFalse (by simpa using h)
  | list l, list l' =>
      match decEqList l l' with
      | isTrue h => isTrue (by rw [h])
      | isFalse h => isFalse (by simpa using h)
  | dict d, dict d' =>
      match decEqDict d d' with
      | isTrue h => isTrue (by rw [h])
      | isFalse h => isFalse (by simpa using h)
  | str _, int _ => isFalse nofun
  | str _, list _ => isFalse nofun
  | str _, dict _ => isFalse nofun
  | int _, str _ => isFalse nofun
  | int _, list _ => isFalse nofun
  | int _, dict _ => isFalse nofun
  | list _, str _ => isFalse nofun
  | list _, int _ => isFalse nofun
  | list _, dict _ => isFalse nofun
  | dict _, str _ => isFalse nofun
  | dict _, int _ => isFalse nofun
  | dict _, list _ => isFalse nofun

/-- Decidable equality of list payloads. -/
def decEqList : (a b : List Ben) → Decidable (a = b)
  | [], [] => isTrue rfl
  | [], _ :: _ => isFalse nofun
  | _ :: _, [] => isFalse nofun
  | x :: xs, y :: ys =>
      match decEq x y, decEqList xs ys with
      | isTrue h, isTrue h' => isTrue (by rw [h, h'])
      | isFalse h, _ => isFalse (by simp [h])
      | _, isFalse h => isFalse (by simp [h])

/-- Decidable equality of dictionary payloads. -/
def decEqDict : (a b : List (Bytes × Ben)) → Decidable (a = b)
  | [], [] => isTrue rfl
  | [], _ :: _ => isFalse nofun
  | _ :: _, [] => isFalse nofun
  | (k, x) :: xs, (k', y) :: ys =>
      if hk : k = k' then
        match decEq x y, decEqDict xs ys with
        | isTrue h, isTrue h' => isTrue (by rw [hk, h, h'])
        | isFalse h, _ => isFalse (by simp [h])
        | _, isFalse h => isFalse (by simp [h])
      else isFalse (by simp [hk])

end

instance : DecidableEq Ben := decEq

end Ben

/-- `BEN_STR_MAXLEN`: digits of a string length. -/
def benStrMaxlen : Nat := 4

/-- `BEN_STR_MAXSIZE` -/
def benStrMaxsize : Nat := 1023

/-- `BEN_INT_MAXLEN`: digits of an integer. -/
def benIntMaxlen : Nat := 10

/-- `BEN_INT_MAXSIZE` -/
def benIntMaxsize : Nat := 2147483647

/-! ## Construction -/

/-- `ben_dict`: append an entry, or the text that `fail` exits with. -/
def benDict (node key val : Option Ben) : Except String Ben :=
  match node, key, val with
  | none, _, _ => .error "ben_dict( 1 )"
  | some (.dict _), none, _ => .error "ben_dict( 4 )"
  | some (.dict _), some (.str _), none => .error "ben_dict( 6 )"
  | some (.dict d), some (.str k), some v => .ok (.dict (d ++ [(k, v)]))
  | some (.dict _), some _, _ => .error "ben_dict( 5 )"
  | some _, _, _ => .error "ben_dict( 2 )"

/-- `ben_list`: append a value, or the text that `fail` exits with. -/
def benList (node val : Option Ben) : Except String Ben :=
  match node, val with
  | none, _ => .error "ben_list( 1 )"
  | some (.list _), none => .error "ben_list( 4 )"
  | some (.list l), some v => .ok (.list (l ++ [v]))
  | some _, _ => .error "ben_list( 2 )"

/-! ## Encoding -/

mutual

/-- `ben_enc_size` -/
def benEncSize : Ben → Nat
  | .dict d => 2 + benEncSizeDict d
  | .list l => 2 + benEncSizeList l
  | .int i => ('i'.toUInt8 :: decimalInt i ++ ['e'.toUInt8]).length
  | .str s => (decimal s.length ++ [':'.toUInt8]).length + s.length

/-- The loop of `ben_enc_size` over the items of a list. -/
def benEncSizeList : List Ben → Nat
  | [] => 0
  | v :: l => benEncSize v + benEncSizeList l

/-- The loop of `ben_enc_size` over the entries of a dictionary. -/
def benEncSizeDict : List (Bytes × Ben) → Nat
  | [] => 0
  | (k, v) :: d =>
      ((decimal k.length ++ [':'.toUInt8]).length + k.length) +
        benEncSize v + benEncSizeDict d

end

/-- The bytes `ben_enc_rec` writes for a string node. -/
def benEncStr (s : Bytes) : Bytes :=
  decimal s.length ++ ':'.toUInt8 :: s

mutual

/-- `ben_enc_rec`: the bytes written from `p` on. -/
def benEncRec : Ben → Bytes
  | .dict d => 'd'.toUInt8 :: benEncRecDict d ++ ['e'.toUInt8]
  | .list l => 'l'.toUInt8 :: benEncRecList l ++ ['e'.toUInt8]
  | .int i => 'i'.toUInt8 :: decimalInt i ++ ['e'.toUInt8]
  | .str s => benEncStr s

/-- The loop of `ben_enc_rec` over the items of a list. -/
def benEncRecList : List Ben → Bytes
  | [] => []
  | v :: l => benEncRec v ++ benEncRecList l

/-- The loop of `ben_enc_rec` over the entries of a dictionary. -/
def benEncRecDict : List (Bytes × Ben) → Bytes
  | [] => []
  | (k, v) :: d => benEncStr k ++ benEncRec v ++ benEncRecDict d

end

/-- `ben_enc`: the encoded object, or `NULL` when the computed size is not the
number of bytes written. -/
def benEnc (node : Ben) : Option Bytes :=
  if benEncSize node ≤ 0 then none
  else if (benEncRec node).length ≠ benEncSize node then none
  else some (benEncRec node)

mutual

/-- The size computation counts the bytes the encoder writes. -/
theorem benEncRec_length : ∀ t : Ben, (benEncRec t).length = benEncSize t
  | .str s => by
      simp [benEncRec, benEncSize, benEncStr]
      omega
  | .int i => rfl
  | .list l => by
      simp [benEncRec, benEncSize, benEncRecList_length l]
      omega
  | .dict d => by
      simp [benEncRec, benEncSize, benEncRecDict_length d]
      omega

theorem benEncRecList_length :
    ∀ l : List Ben, (benEncRecList l).length = benEncSizeList l
  | [] => rfl
  | v :: l => by
      simp [benEncRecList, benEncSizeList, benEncRec_length v,
        benEncRecList_length l]

theorem benEncRecDict_length :
    ∀ d : List (Bytes × Ben), (benEncRecDict d).length = benEncSizeDict d
  | [] => rfl
  | (k, v) :: d => by
      simp [benEncRecDict, benEncSizeDict, benEncStr, benEncRec_length v,
        benEncRecDict_length d]
      omega

end

theorem benEncRec_ne_nil (t : Ben) : benEncRec t ≠ [] := by
  cases t <;> simp [benEncRec, benEncStr]

/-- The encoder never gives up on a tree. -/
@[simp] theorem benEnc_eq (t : Ben) : benEnc t = some (benEncRec t) := by
  have hpos : 0 < benEncSize t := by
    rw [← benEncRec_length]
    exact List.length_pos_iff.mpr (benEncRec_ne_nil t)
  have hne : ¬ benEncSize t ≤ 0 := by omega
  rw [benEnc, if_neg hne, if_neg (not_not.mpr (benEncRec_length t))]

/-! ## Lookups -/

/-- `ben_is_dict` -/
def benIsDict : Option Ben → Bool
  | some (.dict _) => true
  | _ => false

/-- `ben_dict_search_key`: the value of the first entry with this key. -/
def benDictSearchKey (node : Option Ben) (key : Bytes) : Option Ben :=
  match node with
  | some (.dict d) => (d.find? (fun entry => entry.1 = key)).map Prod.snd
  | _ => none

/-- `ben_dict_search_str` -/
def benDictSearchStr (node : Option Ben) (buffer : String) : Option Ben :=
  benDictSearchKey node (cstr buffer)

end Torrentkino
