import Torrentkino.P2p.Krpc

/-!
# The messages of the protocol

All of them are small: `Message.length_raw_le`.
-/

namespace Torrentkino

open Memory Decimal

/-! ## Messages -/

/-- A message of the protocol. -/
inductive Message (v : Build) where
  | query (q : Query)
  | answer (a : Answer v)

namespace Message

variable {v : Build}

/-- The dictionary that the node `me` sends. -/
def dict (me : NodeId) : Message v → Ben
  | query q => q.dict me
  | answer a => a.dict me

/-- The datagram that the node `me` sends. -/
def raw (me : NodeId) (m : Message v) : Bytes :=
  benEncRec (m.dict me)

theorem bounded_dict (me : NodeId) (m : Message v) : (m.dict me).Bounded := by
  cases m with
  | query q => exact q.bounded_dict me
  | answer a => exact a.bounded_dict me

end Message

/-! ## The size of a message -/

/-- A string gets its length in front of it, and a colon. -/
theorem length_benEncStr_le {s : Bytes} (h : s.length ≤ 999) :
    (benEncStr s).length ≤ s.length + 4 := by
  have hdigits : (decimal s.length).length ≤ 3 := decimal_length_le (by decide) (by omega)
  simp only [benEncStr, List.length_append, List.length_cons]
  omega

/-- An entry whose value takes `n` bytes at most. -/
theorem length_benEncRecDict_entry_le
    (key : String) {val : Ben} {d : List (Bytes × Ben)} {n m : Nat}
    (hkey : key.length ≤ 13) (hval : (benEncRec val).length ≤ n)
    (hd : (benEncRecDict d).length ≤ m) :
    (benEncRecDict (entry key val :: d)).length ≤ n + m + 17 := by
  have hlen : (cstr key).length = key.length := by
    rw [cstr, List.length_map, String.length_toList]
  have hstr := @length_benEncStr_le (cstr key) (by omega)
  rw [entry, benEncRecDict]
  simp only [List.length_append]
  omega

theorem length_benEncRec_str_le {s : Bytes} {n : Nat} (h : s.length ≤ n) (hn : n ≤ 999) :
    (benEncRec (.str s)).length ≤ n + 4 := by
  have := @length_benEncStr_le s (by omega)
  rw [benEncRec]
  omega

theorem length_benEncRec_dict_le {d : List (Bytes × Ben)} {n : Nat}
    (h : (benEncRecDict d).length ≤ n) : (benEncRec (.dict d)).length ≤ n + 2 := by
  rw [benEncRec]
  simp only [List.length_cons, List.length_append, List.length_nil]
  omega

section Lengths

variable {v : Build}

theorem length_id_le (id : NodeId) : (benEncRec (.str id.bytes)).length ≤ 24 :=
  length_benEncRec_str_le (Nat.le_of_eq id.length_eq) (by decide)

theorem Sized.length_benEncRec_le {lo : Nat} (s : Sized lo 20) :
    (benEncRec (.str s.bytes)).length ≤ 24 :=
  length_benEncRec_str_le s.length_le (by decide)

theorem length_port_le {port : Nat} (h : port ≤ 65535) :
    (benEncRec (.int port)).length ≤ 7 := by
  have hdigits : (decimal port).length ≤ 5 := decimal_length_le (by decide) (by omega)
  have hpos : ¬ (port : Int) < 0 := by omega
  rw [benEncRec, decimalInt, if_neg hpos]
  simp only [List.length_cons, List.length_append, List.length_nil, Int.natAbs_natCast]
  omega

theorem NodeList.length_benEncRec_le (l : NodeList v) :
    (benEncRec (.str l.bytes)).length ≤ 308 := by
  have hle := Nat.mul_le_mul_right v.ipSizeMetaTriple l.length_le
  rw [← l.length_bytes] at hle
  refine length_benEncRec_str_le (Nat.le_trans hle ?_) (by decide)
  cases v <;> decide

theorem length_benEncRecList_le {l : List Ben} {n : Nat}
    (h : ∀ val ∈ l, (benEncRec val).length ≤ n) : (benEncRecList l).length ≤ l.length * n := by
  induction l with
  | nil =>
      exact Nat.zero_le _
  | cons val l ih =>
      have hval := h val List.mem_cons_self
      have hrest := ih fun val' hmem => h val' (List.mem_cons_of_mem val hmem)
      rw [benEncRecList, List.length_append, List.length_cons, Nat.succ_mul]
      omega

theorem ValueList.length_benEncRec_le (l : ValueList v) :
    (benEncRec (.list (valuesList v l.bytes))).length ≤ 178 := by
  have hpairs : valuesList v l.bytes = l.pairs.map fun pair => .str pair.bytes :=
    valuesList_flatMap l.pairs
  have hitems : ∀ val ∈ valuesList v l.bytes, (benEncRec val).length ≤ 22 := by
    intro val hval
    rw [hpairs] at hval
    obtain ⟨pair, -, rfl⟩ := List.mem_map.mp hval
    refine length_benEncRec_str_le (n := 18) ?_ (by decide)
    rw [pair.length_eq]
    cases v <;> decide
  have hlist := length_benEncRecList_le hitems
  have hlen : (valuesList v l.bytes).length ≤ 8 := by
    rw [hpairs, List.length_map]
    exact l.length_le
  rw [benEncRec]
  simp only [List.length_cons, List.length_append, List.length_nil]
  omega

theorem length_cstr (q : String) : (cstr q).length = q.length := by
  rw [cstr, List.length_map, String.length_toList]

/-- What a query has besides its arguments. -/
theorem length_queryDict_le
    {q : String} {arg : List (Bytes × Ben)} {n : Nat} (hq : q.length ≤ 13)
    (harg : (benEncRecDict arg).length ≤ n) (tid : OwnTid) :
    (benEncRec (queryDict q arg tid.bytes)).length ≤ n + 120 := by
  have htid : (benEncRec (.str tid.bytes)).length ≤ 24 :=
    length_benEncRec_str_le (Nat.le_trans tid.length_le (by decide)) (by decide)
  have hname : (benEncRec (.str (cstr q))).length ≤ 17 :=
    length_benEncRec_str_le (by rwa [length_cstr]) (by decide)
  have hy := length_benEncRecDict_entry_le "y" (d := []) (m := 0) (by decide)
    (length_benEncRec_str_le (s := cstr "q") (n := 1) (by decide) (by decide)) (Nat.le_refl 0)
  have ht := length_benEncRecDict_entry_le "t" (by decide) htid hy
  have hkind := length_benEncRecDict_entry_le "q" (by decide) hname ht
  have ha := length_benEncRecDict_entry_le "a" (by decide) (length_benEncRec_dict_le harg) hkind
  exact Nat.le_trans (length_benEncRec_dict_le ha) (by omega)

/-- What a reply has besides its arguments. -/
theorem length_replyDict_le
    {arg : List (Bytes × Ben)} {n : Nat} (harg : (benEncRecDict arg).length ≤ n) (tid : EchoedTid) :
    (benEncRec (replyDict arg tid.bytes)).length ≤ n + 84 := by
  have htid : (benEncRec (.str tid.bytes)).length ≤ 24 :=
    length_benEncRec_str_le tid.length_le (by decide)
  have hy := length_benEncRecDict_entry_le "y" (d := []) (m := 0) (by decide)
    (length_benEncRec_str_le (s := cstr "r") (n := 1) (by decide) (by decide)) (Nat.le_refl 0)
  have ht := length_benEncRecDict_entry_le "t" (by decide) htid hy
  have hr := length_benEncRecDict_entry_le "r" (by decide) (length_benEncRec_dict_le harg) ht
  exact Nat.le_trans (length_benEncRec_dict_le hr) (by omega)

theorem Query.length_raw_le (me : NodeId) (q : Query) :
    (benEncRec (q.dict me)).length ≤ 512 := by
  have hempty : (benEncRecDict []).length ≤ 0 := Nat.le_refl 0
  have hname : q.content.1.length ≤ 13 := by
    cases q <;> simp only [Query.content] <;> decide
  have hcontent : (benEncRecDict q.content.2).length ≤ 106 := by
    cases q with
    | ping tid =>
        exact Nat.zero_le _
    | findNode target tid =>
        have harg := length_benEncRecDict_entry_le "target" (by decide) (length_id_le target) hempty
        exact Nat.le_trans harg (by omega)
    | getPeers infoHash tid =>
        have harg := length_benEncRecDict_entry_le "info_hash" (by decide) (length_id_le infoHash)
          hempty
        exact Nat.le_trans harg (by omega)
    | announce infoHash port hport token tid =>
        have harg := length_benEncRecDict_entry_le "token" (by decide) token.length_benEncRec_le
          hempty
        have harg := length_benEncRecDict_entry_le "port" (by decide) (length_port_le hport.2) harg
        exact length_benEncRecDict_entry_le "info_hash" (by decide) (length_id_le infoHash) harg
  have harg := length_benEncRecDict_entry_le "id" (by decide) (length_id_le me) hcontent
  rw [Query.dict_eq]
  exact Nat.le_trans (length_queryDict_le hname harg q.tid) (by omega)

theorem Answer.length_raw_le (me : NodeId) (a : Answer v) :
    (benEncRec (a.dict me)).length ≤ 512 := by
  have hkey : v.nodesKey.length ≤ 13 := by
    cases v <;> decide
  have hempty : (benEncRecDict []).length ≤ 0 := Nat.le_refl 0
  rw [Answer.dict_eq]
  obtain ⟨kind, tid⟩ := a
  have hcontent : (benEncRecDict (Answer.content ⟨kind, tid⟩)).length ≤ 366 := by
    cases kind with
    | pong =>
        exact Nat.zero_le _
    | findNode nodes =>
        have harg := length_benEncRecDict_entry_le v.nodesKey hkey nodes.length_benEncRec_le hempty
        exact Nat.le_trans harg (by omega)
    | getPeersNodes nodes token =>
        have harg := length_benEncRecDict_entry_le "token" (by decide) token.length_benEncRec_le
          hempty
        have harg := length_benEncRecDict_entry_le v.nodesKey hkey nodes.length_benEncRec_le harg
        exact Nat.le_trans harg (by omega)
    | getPeersValues values token =>
        have harg := length_benEncRecDict_entry_le "values" (by decide) values.length_benEncRec_le
          hempty
        have harg := length_benEncRecDict_entry_le "token" (by decide) token.length_benEncRec_le
          harg
        exact Nat.le_trans harg (by omega)
    | announce =>
        exact Nat.zero_le _
  have harg := length_benEncRecDict_entry_le "id" (by decide) (length_id_le me) hcontent
  exact Nat.le_trans (length_replyDict_le harg tid) (by omega)

theorem Message.length_raw_le (me : NodeId) (m : Message v) : (m.raw me).length ≤ 512 := by
  cases m with
  | query q => exact q.length_raw_le me
  | answer a => exact a.length_raw_le me

/-- The node id alone has twenty bytes. -/
theorem Message.le_length_raw (me : NodeId) (m : Message v) : 20 ≤ (m.raw me).length := by
  have hid : ∀ arg : List (Bytes × Ben),
      20 ≤ (benEncRec (.dict (entry "id" (.str me.bytes) :: arg))).length := by
    intro arg
    have hme : me.bytes.length = 20 := me.length_eq
    simp only [benEncRec, entry, benEncRecDict, benEncStr, List.length_append, List.length_cons]
    omega
  have hfirst : ∀ (key : String) (val : Ben) (d : List (Bytes × Ben)),
      (benEncRec val).length ≤ (benEncRec (.dict (entry key val :: d))).length := by
    intro key val d
    rw [benEncRec.eq_1, entry, benEncRecDict]
    simp only [List.length_append, List.length_cons]
    omega
  cases m with
  | query q =>
      rw [raw, dict, Query.dict_eq]
      exact Nat.le_trans (hid _) (hfirst _ _ _)
  | answer a =>
      rw [raw, dict, Answer.dict_eq]
      exact Nat.le_trans (hid _) (hfirst _ _ _)

end Lengths

end Torrentkino
