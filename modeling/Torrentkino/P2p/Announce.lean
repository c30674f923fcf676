import Torrentkino.P2p.ReplyAddress
import Torrentkino.P2p.ValueInv

/-!
# Announces

An `announce_peer` is let in with a token that the daemon has handed out, and
its sender is told when it was let in.

`tkn_validate` looks up the `TOKEN_SIZE` bytes behind a pointer.  The token of a
query may be longer or shorter than that: of a longer one the rest is ignored,
and for a shorter one the lookup reads the zero byte behind the string and on
into the heap.

**Results.**
* `announce_guard_iff`: the check lets exactly the announces with a known token
  pass, unless the token agrees with a known one in what is looked at.
* `confirmsStored_iff`: an announce that is confirmed has been stored, unless it
  passed the checks and the store refused it.
-/

namespace Torrentkino

open Memory

/-! ## The token database -/

/-- What the hash of the token database refers to is listed.  The converse may
fail: two tokens share an id if `tkn_create` finds no unused one, and the first
of them to expire takes the hash entry with it. -/
def TokenInv (s : Token) : Prop :=
  ∀ k r, s.tokens.find k = some r →
    r ∈ s.tokens.list ∧ ∃ tkn, s.tokens.heap.get r = some tkn ∧ tkn.id = k

theorem tokenInv_tknInit : TokenInv tknInit := by
  intro k r h
  simp [tknInit, Table.init, Table.find] at h

theorem TokenInv.tknPut {s : Token} (h : TokenInv s) (now : Int) (rnd : Random) :
    TokenInv (tknPut now s rnd).1 := by
  intro k r hr
  let id := (tknCreate s rnd).1
  have hfind : hashGet (hashPut s.tokens.hash id (some s.tokens.heap.fresh)).2 k = some r := hr
  have hlist : ∀ q, q ∈ (Torrentkino.tknPut now s rnd).1.tokens.list ↔
      q = s.tokens.heap.fresh ∨ q ∈ s.tokens.list := by
    intro q
    simp [Torrentkino.tknPut, Table.append, Table.insert, or_comm]
  rw [hashGet_hashPut] at hfind
  split at hfind
  · rename_i hk
    cases hfind
    exact ⟨(hlist _).mpr (.inl rfl), _, Heap.get_alloc_self _ _, hk.symm⟩
  · obtain ⟨hmem, tkn, htkn, hid⟩ := h k r hfind
    exact ⟨(hlist _).mpr (.inr hmem), tkn, Heap.get_alloc_of_get _ htkn, hid⟩

theorem TokenInv.tknDel {s : Token} (h : TokenInv s) (q : Ref) : TokenInv (tknDel s q) := by
  rw [Torrentkino.tknDel]
  split
  · exact h
  · rename_i tkn htkn
    intro k r hr
    have hfind : hashGet (hashDel s.tokens.hash tkn.id) k = some r := hr
    rw [hashGet_hashDel] at hfind
    split at hfind
    · cases hfind
    · rename_i hk
      obtain ⟨hmem, tkn', htkn', hid⟩ := h k r hfind
      have hne : r ≠ q := by
        rintro rfl
        cases htkn.symm.trans htkn'
        exact hk hid.symm
      exact ⟨(List.mem_erase_of_ne hne).mpr hmem, tkn', (Heap.get_free_of_ne _ hne).trans htkn',
        hid⟩

theorem TokenInv.tknExpire {s : Token} (h : TokenInv s) (now : Int) :
    TokenInv (tknExpire now s) := by
  refine List.foldlRecOn s.tokens.list _ h ?_
  intro s hs r _
  split
  · exact hs.tknDel r
  · exact hs

/-- A call that changes the token database. -/
inductive TokenOp where
  | put (now : Int) (rnd : Random)
  | expire (now : Int)

/-- One call. -/
def tknStep (s : Token) : TokenOp → Token
  | .put now rnd => (tknPut now s rnd).1
  | .expire now => tknExpire now s

theorem tokenInv_run (ops : List TokenOp) : TokenInv (ops.foldl tknStep tknInit) := by
  refine List.foldlRecOn ops _ tokenInv_tknInit ?_
  intro s hs op _
  cases op with
  | put now rnd =>
      exact hs.tknPut now rnd
  | expire now =>
      exact hs.tknExpire now

/-- The token is in the database. -/
def TknListed (s : Token) (token : Bytes) : Prop :=
  ∃ tkn ∈ s.tokens.objects, tkn.id = token

/-- The hash finds the key. -/
def TknHashed (s : Token) (key : Bytes) : Prop :=
  hashExists s.tokens.hash key = true

theorem TokenInv.listed {s : Token} (h : TokenInv s) {key : Bytes} (hkey : TknHashed s key) :
    TknListed s key := by
  obtain ⟨r, hr⟩ := Option.isSome_iff_exists.mp hkey
  obtain ⟨hmem, tkn, htkn, hid⟩ := h key r hr
  exact ⟨tkn, List.mem_filterMap.mpr ⟨r, hmem, htkn⟩, hid⟩

theorem TknListed.length_eq {s : Token} {token : Bytes} (h : TknListed s token) :
    token.length = tokenSize := by
  obtain ⟨tkn, -, rfl⟩ := h
  exact tkn.id_length

/-! ## The check -/

/-- The other arguments of an announce are right, and this is its token. -/
def AnnounceToken (arg : Ben) (token : Bytes) : Prop :=
  ∃ infoHash port, benHash (benDictSearchStr (some arg) "info_hash") = some infoHash ∧
    benStrS (benDictSearchStr (some arg) "token") = some token ∧
    benDictSearchStr (some arg) "port" = some (.int port) ∧ 1 ≤ port ∧ port ≤ 65535

/-- `p2p_announce_get_request` calls `val_put`; `behind` is what lies behind the
token string. -/
def CallsValPut (s : Token) (behind : Bytes) (arg : Ben) : Prop :=
  ∃ infoHash token port,
    announceArgs (tknAccepts s behind) arg = .ok (.announce infoHash token port)

/-- `info_hash` has 20 bytes, the token is a known one, and the port is a port. -/
def Genuine (s : Token) (arg : Ben) : Prop :=
  ∃ token, AnnounceToken arg token ∧ TknListed s token

/-- The token agrees with a known one as far as it is looked at, without being
one; or it is known and has lost its hash entry. -/
def MistakenToken (s : Token) (token : Bytes) : Prop :=
  (token.length ≠ tokenSize ∧ token.length ≤ tokenSizeMax ∧
      ∃ key, TknHashed s key ∧ (token ++ [0]).take tokenSize <+: key) ∨
    (TknListed s token ∧ ¬ TknHashed s token)

/-- An announce with such a token. -/
def Mistaken (s : Token) (arg : Ben) : Prop :=
  ∃ token, AnnounceToken arg token ∧ MistakenToken s token

theorem AnnounceToken.unique
    {arg : Ben} {token token' : Bytes} (h : AnnounceToken arg token)
    (h' : AnnounceToken arg token') :
    token = token' := by
  obtain ⟨_, _, -, htoken, -⟩ := h
  obtain ⟨_, _, -, htoken', -⟩ := h'
  exact Option.some.inj (htoken.symm.trans htoken')

theorem callsValPut_iff (s : Token) (behind : Bytes) (arg : Ben) :
    CallsValPut s behind arg ↔
      ∃ token, AnnounceToken arg token ∧ token.length ≤ tokenSizeMax ∧
        TknHashed s (copy (buffer (token ++ [0]) behind) 0 tokenSize) := by
  constructor
  · rintro ⟨_, _, _, hargs⟩
    obtain ⟨infoHash, token, port, hhash, htoken, hlen, haccept, hport, hlow, hhigh, -⟩ :=
      (announceArgs_eq_ok_iff _ _ _).mp hargs
    exact ⟨token, ⟨infoHash, port, hhash, htoken, hport, hlow, hhigh⟩, hlen, haccept⟩
  · rintro ⟨token, ⟨infoHash, port, hhash, htoken, hport, hlow, hhigh⟩, hlen, haccept⟩
    exact ⟨infoHash, token, port.toNat, (announceArgs_eq_ok_iff _ _ _).mpr
      ⟨infoHash, token, port, hhash, htoken, hlen, haccept, hport, hlow, hhigh, rfl⟩⟩

/-- What the check looks up for a token of the right size is the token. -/
theorem copy_token (token behind : Bytes) (hlen : token.length = tokenSize) :
    copy (buffer (token ++ [0]) behind) 0 tokenSize = token := by
  rw [← hlen]
  refine copy_of_holds ((holds_buffer_iff_isPrefix behind ?_).mpr (List.prefix_append _ _))
  simp

/-- The check of the token alone. -/
theorem token_guard_iff
    {s : Token} (h : TokenInv s) (token : Bytes) :
    (∀ behind, (token.length ≤ tokenSizeMax ∧
        TknHashed s (copy (buffer (token ++ [0]) behind) 0 tokenSize)) ↔ TknListed s token) ↔
      ¬ MistakenToken s token := by
  by_cases hlen : token.length = tokenSize
  · have hmax : token.length ≤ tokenSizeMax := by
      rw [hlen]
      decide
    constructor
    · rintro hall (⟨hne, -⟩ | ⟨hlisted, hlost⟩)
      · exact hne hlen
      · have hhashed := ((hall []).mpr hlisted).2
        rw [copy_token token _ hlen] at hhashed
        exact hlost hhashed
    · intro hmistaken behind
      rw [copy_token token _ hlen]
      constructor
      · rintro ⟨-, hhashed⟩
        exact h.listed hhashed
      · intro hlisted
        refine ⟨hmax, ?_⟩
        by_contra hlost
        exact hmistaken (.inr ⟨hlisted, hlost⟩)
  · have hlisted : ¬ TknListed s token := fun h => hlen h.length_eq
    have hread : (∃ behind, TknHashed s (copy (buffer (token ++ [0]) behind) 0 tokenSize)) ↔
        ∃ key, TknHashed s key ∧ (token ++ [0]).take tokenSize <+: key := by
      constructor
      · rintro ⟨behind, hkey⟩
        refine ⟨_, hkey, ?_⟩
        have hprefix := (exists_copy_buffer_iff (token ++ [0])
          (copy (buffer (token ++ [0]) behind) 0 tokenSize)).mp ⟨behind, by rw [copy_length]⟩
        rwa [copy_length] at hprefix
      · rintro ⟨key, hkey, hprefix⟩
        have hsize := (h.listed hkey).length_eq
        rw [← hsize] at hprefix ⊢
        obtain ⟨behind, hcopy⟩ := (exists_copy_buffer_iff _ _).mpr hprefix
        exact ⟨behind, by rwa [hcopy]⟩
    constructor
    · rintro hall (⟨-, hmax, hkey⟩ | ⟨hknown, -⟩)
      · obtain ⟨behind, hhashed⟩ := hread.mpr hkey
        exact hlisted ((hall behind).mp ⟨hmax, hhashed⟩)
      · exact hlisted hknown
    · intro hmistaken behind
      constructor
      · rintro ⟨hmax, hhashed⟩
        exact absurd (.inl ⟨hlen, hmax, hread.mp ⟨behind, hhashed⟩⟩) hmistaken
      · intro hknown
        exact absurd hknown hlisted

/-- The announces that pass the checks are exactly those with a known token, and
what lies behind the token in memory does not matter, unless the token is
mistaken for a known one or a known one for none. -/
theorem announce_guard_iff (ops : List TokenOp) (arg : Ben) :
    (∀ behind, CallsValPut (ops.foldl tknStep tknInit) behind arg ↔
        Genuine (ops.foldl tknStep tknInit) arg) ↔
      ¬ Mistaken (ops.foldl tknStep tknInit) arg := by
  have h := tokenInv_run ops
  generalize ops.foldl tknStep tknInit = s at h
  simp only [callsValPut_iff, Genuine, Mistaken]
  by_cases harg : ∃ token, AnnounceToken arg token
  · obtain ⟨token, htoken⟩ := harg
    have hone : ∀ p : Bytes → Prop, (∃ t, AnnounceToken arg t ∧ p t) ↔ p token := by
      intro p
      constructor
      · rintro ⟨t, ht, hp⟩
        rwa [htoken.unique ht]
      · intro hp
        exact ⟨token, htoken, hp⟩
    simp only [hone]
    exact token_guard_iff h token
  · have hnone : ∀ p : Bytes → Prop, ¬ ∃ t, AnnounceToken arg t ∧ p t := by
      rintro p ⟨t, ht, -⟩
      exact harg ⟨t, ht⟩
    simp only [hnone, iff_self, implies_true, not_false_eq_true]

/-- The arguments of an announce with a token of nine bytes. -/
def longTokenArgs : Ben :=
  .dict [entry "info_hash" (.str (List.replicate 20 0)), entry "port" (.int 6881),
    entry "token" (.str [0, 1, 2, 3, 4, 5, 6, 7, 9])]

/-- The token of `main` has eight bytes, and they are enough. -/
theorem not_announce_guard_longToken :
    ¬ ∀ (ops : List TokenOp) (arg : Ben) (behind : Bytes),
      CallsValPut (ops.foldl tknStep tknInit) behind arg ↔
        Genuine (ops.foldl tknStep tknInit) arg := by
  intro hall
  have hcalls : CallsValPut
      ([.put 0 ⟨fun _ => 0, UInt8.ofNat⟩].foldl tknStep tknInit) [] longTokenArgs := by
    refine ⟨.zero, [0, 1, 2, 3, 4, 5, 6, 7, 9], 6881, ?_⟩
    decide +kernel
  obtain ⟨token, ⟨_, _, -, htoken, -⟩, hlisted⟩ := (hall _ _ _).mp hcalls
  have hnine : token.length = 9 := by
    have hsome : benStrS (benDictSearchStr (some longTokenArgs) "token") =
        some [0, 1, 2, 3, 4, 5, 6, 7, 9] := by decide
    rw [Option.some.inj (htoken.symm.trans hsome)]
    rfl
  rw [hlisted.length_eq] at hnine
  exact absurd hnine (by decide)

/-! ## The success message -/

section Success

variable {v : Build}

/-- If a success message is sent for an announce, the store has an entry of the
announcing node for the announced target, with the address of the sender and the
announced port. -/
def ConfirmsStored (conf : Conf) (behind : Bytes) (s : Main v) (packet : Ben) (sa : Ip v) :
    Prop :=
  ∀ s' head, p2pRequest conf behind { s with sent := [] } packet sa = .ok s' →
    requestHead conf.nodeId packet = .ok head → head.q = cstr "announce_peer" →
    (∃ addr, .p2p ⟨addr, benEncRec (announceReplyDict conf.nodeId head.t)⟩ ∈ s'.sent) →
    ∃ infoHash port, benHash (benDictSearchStr (some head.a) "info_hash") = some infoHash ∧
      benDictSearchStr (some head.a) "port" = some (.int port) ∧
      ValueHas s'.value infoHash head.id (ipMergePortToSin sa port.toNat).pair

/-- The query is an announce that passes the checks, of a target that is not in
the store, while the store is full of nearer ones. -/
def RefusedAnnounce (conf : Conf) (behind : Bytes) (s : Main v) (packet : Ben) : Prop :=
  ∃ head infoHash token port, requestHead conf.nodeId packet = .ok head ∧
    requestBody (tknAccepts s.token behind) head.q head.a =
      .ok (.announce infoHash token port) ∧
    (∀ t ∈ s.value.targets.objects, t.target ≠ infoHash) ∧
    ValFull conf.nodeId s.value infoHash

variable {conf : Conf} {behind : Bytes} {s : Main v} {packet : Ben} {sa : Ip v}

theorem confirmsStored_of_not_refused
    (h : ValueInv conf.nodeId s.value) (hrefused : ¬ RefusedAnnounce conf behind s packet) :
    ConfirmsStored conf behind s packet sa := by
  intro s' head hrun hhead hq ⟨addr, hsent⟩
  cases hbody : requestBody (tknAccepts s.token behind) head.q head.a with
  | error e =>
      have hsame : s' = ({ s with sent := [] } : Main v).nbhdPut conf head.id sa := by
        rw [p2pRequest, hhead] at hrun
        dsimp only at hrun
        have htoken : (({ s with sent := [] } : Main v).nbhdPut conf head.id sa).token =
            s.token := rfl
        rw [htoken, hbody] at hrun
        cases hrun
        rfl
      rw [hsame] at hsent
      cases hsent
  | ok r =>
      have hargs : announceArgs (tknAccepts s.token behind) head.a = .ok r := by
        rw [hq] at hbody
        exact hbody
      obtain ⟨infoHash, token, port, hhash, -, -, -, hport, -, -, rfl⟩ :=
        (announceArgs_eq_ok_iff _ _ _).mp hargs
      refine ⟨infoHash, port, hhash, hport, ?_⟩
      rw [p2pRequest_announce hhead hbody] at hrun
      cases hrun
      refine h.valPut_has _ head.id port.toNat sa ?_
      intro hnew hfull
      exact hrefused ⟨head, infoHash, token, port.toNat, hhead, hbody, hnew, hfull⟩

theorem not_confirmsStored_of_refused
    (h : ValueInv conf.nodeId s.value) (hrefused : RefusedAnnounce conf behind s packet) :
    ¬ ConfirmsStored conf behind s packet sa := by
  obtain ⟨head, infoHash, token, port, hhead, hbody, hnew, hfull⟩ := hrefused
  intro hconfirms
  obtain ⟨hq, hargs⟩ := (requestBody_eq_announce_iff _ _ _ _ _ _).mp hbody
  obtain ⟨_, _, _, hhash, -, -, -, -, -, -, hr⟩ := (announceArgs_eq_ok_iff _ _ _).mp hargs
  rw [Request.announce.injEq] at hr
  obtain ⟨rfl, -, -⟩ := hr
  obtain ⟨infoHash', port', hhash', -, t, ht, htarget, -⟩ :=
    hconfirms _ head (p2pRequest_announce hhead hbody sa) hhead hq
      ⟨_, by rw [sent_p2pAnnounceGetRequest]; exact List.mem_append_right _ List.mem_cons_self⟩
  cases hhash.symm.trans hhash'
  -- the store is what it was before
  have hvalue : (valPut conf.nodeId s.now s.value infoHash head.id port sa).1 = s.value := by
    rw [valPut_refused conf.nodeId s.now head.id port sa h.length_le
      ((valFind_eq_none_iff _ _).mpr hnew)]
    rw [h.placeOf_lt_iff hnew]
    exact not_not_intro hfull
  have ht' : t ∈ (valPut conf.nodeId s.now s.value infoHash head.id port sa).1.targets.objects := ht
  rw [hvalue] at ht'
  exact hnew t ht' htarget

/-- For every reachable store: the announces that are confirmed have been stored,
unless the announce passed the checks and the store has no room for it. -/
theorem confirmsStored_iff
    (conf : Conf) (behind : Bytes) (s : Main v) (packet : Ben) (sa : Ip v)
    (ops : List (ValOp v)) (hs : s.value = ops.foldl (valStep conf.nodeId) valInit) :
    ConfirmsStored conf behind s packet sa ↔ ¬ RefusedAnnounce conf behind s packet := by
  have h : ValueInv conf.nodeId s.value := hs ▸ valueInv_run conf.nodeId ops
  constructor
  · intro hconfirms hrefused
    exact not_confirmsStored_of_refused h hrefused hconfirms
  · exact confirmsStored_of_not_refused h

end Success

theorem confirmsStored_announce6881 :
    (mainInit (v := .ipv4) 0 [] ⟨fun _ => 0, UInt8.ofNat⟩ []).value =
        [].foldl (valStep onesConf.nodeId) valInit ∧
      ConfirmsStored onesConf [] (mainInit 0 [] ⟨fun _ => 0, UInt8.ofNat⟩ []) announce6881
        (⟨[10, 0, 0, 2], (105, 1), rfl⟩ : Ip .ipv4) := by
  refine ⟨rfl, (confirmsStored_iff _ _ _ _ _ [] rfl).mpr ?_⟩
  rintro ⟨_, _, _, _, -, -, -, hlen, -⟩
  exact absurd hlen (by decide)

/-- A target that differs from a node id of twenty ones in the last byte only. -/
def nearTarget (i : Nat) : NodeId :=
  ⟨List.replicate 19 1 ++ [UInt8.ofNat i], by simp [sha1Size]⟩

/-- The announces of fifty such targets, the farthest one first. -/
def nearAnnounces : List (ValOp .ipv4) :=
  (List.range 50).reverse.map fun i =>
    .put 0 (nearTarget i) .zero 6881 (.ofQuad 10 0 0 2 (105, 1))

/-- A node that holds them. -/
def fullMain : Main .ipv4 :=
  { mainInit 0 [] ⟨fun _ => 0, UInt8.ofNat⟩ [] with
    value := nearAnnounces.foldl (valStep onesConf.nodeId) valInit }

theorem distances_fullMain :
    fullMain.value.targets.objects.map (TargetV.distance onesConf.nodeId) = List.range 50 := by
  decide +kernel

/-- A full store refuses the announce of a far target, and confirms it. -/
theorem not_confirmsStored_fullMain :
    ¬ ∀ (v : Build) (conf : Conf) (behind : Bytes) (s : Main v) (packet : Ben) (sa : Ip v)
      (ops : List (ValOp v)), s.value = ops.foldl (valStep conf.nodeId) valInit →
        ConfirmsStored conf behind s packet sa := by
  intro hall
  have hvalue : fullMain.value = nearAnnounces.foldl (valStep onesConf.nodeId) valInit := by
    rw [fullMain]
  have hinv : ValueInv onesConf.nodeId fullMain.value := by
    rw [hvalue]
    exact valueInv_run onesConf.nodeId nearAnnounces
  refine not_confirmsStored_of_refused hinv ?_
    (hall .ipv4 onesConf [] fullMain announce6881 ⟨[10, 0, 0, 2], (105, 1), rfl⟩ nearAnnounces
      hvalue)
  have hhead : requestHead onesConf.nodeId announce6881 = .ok _ :=
    requestHead_queryDict (by decide) "announce_peer" _ (by decide)
  have hnear : ∀ t ∈ fullMain.value.targets.objects,
      t.target.distance onesConf.nodeId < 50 := by
    intro t ht
    have hmem := List.mem_map_of_mem (f := TargetV.distance onesConf.nodeId) ht
    rw [distances_fullMain, List.mem_range] at hmem
    exact hmem
  have hfar : 50 ≤ NodeId.zero.distance onesConf.nodeId := by decide +kernel
  refine ⟨_, .zero, [0, 1, 2, 3, 4, 5, 6, 7], 6881, hhead, ?_, ?_, ?_, ?_⟩
  · decide +kernel
  · intro t ht heq
    have hlt := hnear t ht
    rw [heq] at hlt
    omega
  · have hlen := congrArg List.length distances_fullMain
    rwa [List.length_map, List.length_range] at hlen
  · intro t ht
    exact Nat.lt_of_lt_of_le (hnear t ht) hfar

end Torrentkino
