import Torrentkino.Lib.Network
import Torrentkino.P2p.Talks

/-!
# `p2p/aes.c` and the build with encryption

With `POLARSSL` a daemon may have a key (`-k`).  Then `send_aes` puts each message into
a dictionary of a ciphertext and a salt, and `p2p_parse` opens what does not come from
the own host.

SHA-256 and AES come from the library.  `Polarssl` stands for it, and
`Polarssl.Documented` is what its documentation promises.

**Results.**
* `run_daemonStepAes`: a daemon with a key goes through the states of a daemon without
  one that receives what the key opens.
* `channel_modes`: who understands whom.
-/

namespace Torrentkino

open Memory Simulation Network

/-- `AES_IV_SIZE` -/
def aesIvSize : Nat := 16

/-- `AES_KEY_SIZE` -/
def aesKeySize : Nat := 32

/-- `AES_MSG_SIZE` -/
def aesMsgSize : Nat := 1456

/-- `AES_BLOCK_SIZE` -/
def aesBlockSize : Nat := 16

/-- `AES_KEY_ROUNDS` -/
def aesKeyRounds : Nat := 8

/-- What the program uses of the library. -/
structure Polarssl where
  /-- `sha2_starts` for SHA-256, `sha2_update` and `sha2_finish`. -/
  sha2 : Bytes → Bytes
  /-- `aes_setkey_enc` and `aes_crypt_cbc` with key, salt and input; `none` is an error. -/
  encrypt : Bytes → Bytes → Bytes → Option Bytes
  /-- `aes_setkey_dec` and `aes_crypt_cbc`. -/
  decrypt : Bytes → Bytes → Bytes → Option Bytes

/-- A digest has 32 bytes, and with a key of 256 bits the cipher turns whole blocks into
as many blocks, and back. -/
structure Polarssl.Documented (ssl : Polarssl) : Prop where
  length_sha2 : ∀ input, (ssl.sha2 input).length = aesKeySize
  cbc : ∀ key iv input, key.length = aesKeySize → iv.length = aesIvSize →
    input.length % aesBlockSize = 0 →
    ∃ output, ssl.encrypt key iv input = some output ∧ output.length = input.length ∧
      ssl.decrypt key iv output = some input

/-- Something that goes wrong in the build with encryption. -/
inductive AesFault where
  /-- What can go wrong in the other one. -/
  | daemon (fault : Fault)
  /-- `aes_crypt_cbc` left the buffer for the plaintext. -/
  | plaintext
deriving DecidableEq, Repr

section Aes

variable (ssl : Polarssl)

/-- `aes_key_setup` -/
def aesKeySetup (iv key : Bytes) : Bytes :=
  (fun digest => ssl.sha2 (digest ++ key))^[aesKeyRounds]
    (iv ++ List.replicate (aesKeySize - aesIvSize) 0)

/-- `aes_encrypt` -/
def aesEncrypt (plain iv key : Bytes) : Option Bytes :=
  if plain.length ≤ 0 ∨ plain.length > aesMsgSize then none
  else
    let i := plain.length % aesBlockSize
    let plainlenPadded := if i = 0 then plain.length else plain.length - i + aesBlockSize
    if plainlenPadded ≤ 0 ∨ plainlenPadded > aesMsgSize then none
    else
      ssl.encrypt (aesKeySetup ssl iv key) iv
        (plain ++ List.replicate (plainlenPadded - plain.length) 0)

/-- `aes_decrypt`; the length of the input is not compared with the size of the buffer,
which is cleared before. -/
def aesDecrypt (cipher iv key : Bytes) : Except AesFault (Option Bytes) :=
  if cipher.length % aesBlockSize ≠ 0 then .ok none
  else if cipher.length > aesMsgSize then .error .plaintext
  else
    .ok ((ssl.decrypt (aesKeySetup ssl iv key) iv cipher).map fun output =>
      copy (buffer output []) 0 cipher.length)

/-! ## Sending -/

/-- A salt. -/
abbrev Salt := Sized aesIvSize aesIvSize

/-- The dictionary of `send_aes`. -/
def aesDict (aes salt : Bytes) : Ben :=
  .dict [entry "a" (.str aes), entry "s" (.str salt)]

/-- `send_aes`, which sends nothing if the encryption fails. -/
def sendAes {v : Build} (key : Bytes) (salt : Salt) (d : Datagram v) : Option (Datagram v) :=
  (aesEncrypt ssl d.raw salt.bytes key).bind fun aes => sendUdp d.addr (aesDict aes salt.bytes)

/-- What leaves the host for a message, with a key or without one. -/
def sendRaw {v : Build} (key : Option Bytes) (salt : Salt) (d : Datagram v) :
    Option (Datagram v) :=
  match key with
  | some key => sendAes ssl key salt d
  | none => some d

/-! ## Receiving -/

/-- The first part of `p2p_decrypt`: what a packet decrypts to, unless it is dropped. -/
def packetPlain (key : Bytes) (packet : Option Ben) : Except AesFault (Option Bytes) :=
  if ¬ benIsDict packet then .ok none
  else
    match benStrS (benDictSearchStr packet "s") with
    | none => .ok none
    | some salt =>
      if salt.length ≠ aesIvSize then .ok none
      else
        match benStrS (benDictSearchStr packet "a") with
        | none => .ok none
        | some aes => if aes.length ≤ 2 then .ok none else aesDecrypt ssl aes salt key

section Receive

variable {v : Build}

/-- `p2p_decrypt` -/
def p2pDecrypt (key : Bytes) (conf : Conf) (behind : Bytes) (s : Main v) (bencode : Raw)
    (sa : Ip v) : Except AesFault (Main v) :=
  match benDec bencode with
  | .error _ => .error (.daemon .decode)
  | .ok (packet, _) =>
    match packetPlain ssl key packet with
    | .error e => .error e
    | .ok none => .ok s
    | .ok (some plain) =>
      if plain.length < sha1Size then .ok s
      else
        match benValidate ⟨buffer plain [], plain.length⟩ with
        | none => .ok s
        | some _ =>
            (p2pDecode conf behind s ⟨buffer plain [], plain.length⟩ sa).mapError .daemon

/-- `p2p_parse` in the build with encryption. -/
def p2pParseAes (key : Option Bytes) (conf : Conf) (behind : Bytes) (now : Int) (s : Main v)
    (bencode : Raw) (sa : Ip v) : Except AesFault (Main v) :=
  let s := { s with p2p := { s.p2p with timeNow := now } }
  if bencode.size < 1 then .ok s
  else if ipIsLinklocal sa then .ok s
  else
    match benValidate bencode with
    | none => .ok s
    | some _ =>
      match key with
      | some key =>
          if ipIsLocalhost sa then (p2pDecode conf behind s bencode sa).mapError .daemon
          else p2pDecrypt ssl key conf behind s bencode sa
      | none => (p2pDecode conf behind s bencode sa).mapError .daemon

/-- One event in the build with encryption.  The messages in the new state are the ones
that are handed to `send_aes`.  It reads the salts from `/dev/urandom`, and so do other
functions; here the bytes that become salts are a part of it of their own, and `Random`
is the rest. -/
def daemonStepAes (key : Option Bytes) (conf : Conf) (s : Main v) (e : Event v) :
    Except AesFault (Main v) :=
  match e with
  | .p2p now behind datagram sa =>
      p2pParseAes ssl key conf behind now { s with sent := [] } (received datagram) sa
  | .dns datagram sa => (daemonStep conf s (.dns datagram sa)).mapError .daemon
  | .cron now resolved => (daemonStep conf s (.cron now resolved)).mapError .daemon

end Receive
end Aes

/-! ## The limits of what was decoded -/

mutual

/-- What a derivation stands for is within the limits of the validator. -/
theorem bounded_toBen : ∀ d : BenDerivation, d.toBen.Bounded
  | .str lit => by
      rw [BenDerivation.toBen, Ben.Bounded]
      exact lit.small
  | .int lit => by
      rw [BenDerivation.toBen, Ben.Bounded, IntLit.value]
      have hsmall := lit.small
      split <;> omega
  | .list items => by
      rw [BenDerivation.toBen, Ben.Bounded]
      exact boundedList_toBenItems items
  | .dict entries => by
      rw [BenDerivation.toBen, Ben.Bounded]
      exact boundedDict_toBenEntries entries

theorem boundedList_toBenItems :
    ∀ items : List BenDerivation, Ben.BoundedList (BenDerivation.toBenItems items)
  | [] => trivial
  | d :: items => ⟨bounded_toBen d, boundedList_toBenItems items⟩

theorem boundedDict_toBenEntries :
    ∀ entries : List (StrLit × BenDerivation),
      Ben.BoundedDict (BenDerivation.toBenEntries entries)
  | [] => trivial
  | (key, d) :: entries => ⟨key.small, bounded_toBen d, boundedDict_toBenEntries entries⟩

end

/-- What the decoder makes of a valid datagram. -/
theorem bounded_of_benDec
    {b after : Bytes} {t : Ben} {q q' : Nat}
    (hvalid : benValidate ⟨buffer b after, b.length⟩ = some q)
    (hdec : benDec ⟨buffer b after, b.length⟩ = .ok (some t, q')) : t.Bounded := by
  rcases benValidate_sound after hvalid with ⟨d, hd, -⟩ | ⟨htrunc, -⟩
  · cases (parsers_of_isPrefix after hd).2.symm.trans hdec
    exact bounded_toBen d
  · cases (truncatedScalar_spec after htrunc).2.symm.trans hdec

theorem length_le_of_boundedDict
    {d : List (Bytes × Ben)} (h : Ben.BoundedDict d) {key s : Bytes} (hmem : (key, .str s) ∈ d) :
    s.length ≤ benStrMaxsize := by
  induction d with
  | nil =>
      cases hmem
  | cons e d ih =>
      obtain ⟨k, val⟩ := e
      obtain ⟨-, hval, hd⟩ := h
      rcases List.mem_cons.mp hmem with heq | hmem
      · cases heq
        exact hval
      · exact ih hd hmem

/-- The strings of a dictionary that was decoded. -/
theorem length_benStrS_le
    {t : Ben} (h : t.Bounded) {key : String} {s : Bytes}
    (hs : benStrS (benDictSearchStr (some t) key) = some s) : s.length ≤ benStrMaxsize := by
  cases t with
  | dict d =>
      rw [benDictSearchStr, benDictSearchKey] at hs
      cases hfind : d.find? fun entry => entry.1 = cstr key with
      | none =>
          rw [hfind] at hs
          cases hs
      | some e =>
          rw [hfind] at hs
          obtain ⟨k, val⟩ := e
          cases val with
          | str s' =>
              cases hs
              exact length_le_of_boundedDict h (List.mem_of_find?_eq_some hfind)
          | int | list | dict =>
              cases hs
  | str | int | list =>
      cases hs

/-! ## Daemons with a key and daemons without one -/

section Refine

variable {v : Build} (ssl : Polarssl)

/-- What a daemon without a key would have to receive, to do what this one does. -/
def opened (key : Option Bytes) (sa : Ip v) (datagram : Bytes) : Bytes :=
  match key with
  | none => datagram
  | some key =>
      if ipIsLocalhost sa ∨ (benValidate (received datagram)).isNone then datagram
      else
        match benDec (received datagram) with
        | .error _ => datagram
        | .ok (packet, _) =>
            match packetPlain ssl key packet with
            | .ok (some plain) => if plain.length < sha1Size then [] else plain
            | _ => []

/-- The event of a daemon without a key. -/
def openEvent (key : Option Bytes) : Event v → Event v
  | .p2p now behind datagram sa => .p2p now behind (opened ssl key sa datagram) sa
  | .dns datagram sa => .dns datagram sa
  | .cron now resolved => .cron now resolved

variable {ssl} {key : Option Bytes} {conf : Conf} {behind : Bytes} {now : Int} {s : Main v}
  {bencode : Raw} {sa : Ip v}

/-- The salt of a packet has to have its size, and then the buffer for the plaintext is large
enough. -/
theorem packetPlain_ok
    {key : Bytes} {t : Ben} (h : t.Bounded) :
    packetPlain ssl key (some t) = .ok none ∨
      ∃ plain, packetPlain ssl key (some t) = .ok (some plain) ∧ plain.length ≤ benStrMaxsize := by
  rw [packetPlain]
  split
  · exact .inl rfl
  split
  · exact .inl rfl
  rename_i salt _
  split
  · exact .inl rfl
  split
  · exact .inl rfl
  rename_i aes haes
  split
  · exact .inl rfl
  have hle := length_benStrS_le h haes
  have hsize : ¬ aes.length > aesMsgSize := by
    have : benStrMaxsize ≤ aesMsgSize := by decide
    omega
  rw [aesDecrypt, if_neg hsize]
  split
  · exact .inl rfl
  cases ssl.decrypt (aesKeySetup ssl salt key) salt aes with
  | none =>
      exact .inl rfl
  | some output =>
      refine .inr ⟨_, rfl, ?_⟩
      rw [copy_length]
      exact hle

/-- Where no key is used. -/
theorem p2pParseAes_of_open (h : key = none ∨ ipIsLocalhost sa = true) :
    p2pParseAes ssl key conf behind now s bencode sa =
      (p2pParse conf behind now s bencode sa).mapError .daemon := by
  simp only [p2pParseAes, p2pParse]
  split
  · rfl
  split
  · rfl
  cases benValidate bencode with
  | none =>
      rfl
  | some q =>
      dsimp only
      split
      · rename_i key
        have hhost : ipIsLocalhost sa = true := h.resolve_left (Option.some_ne_none key)
        rw [if_pos hhost]
      · rfl

/-- Nothing happens but a look at the clock. -/
theorem p2pParse_of_invalid (h : benValidate bencode = none) :
    p2pParse conf behind now s bencode sa =
      .ok { s with p2p := { s.p2p with timeNow := now } } := by
  simp only [p2pParse]
  split
  · rfl
  split
  · rfl
  rw [h]

theorem p2pParseAes_of_invalid (h : benValidate bencode = none) :
    p2pParseAes ssl key conf behind now s bencode sa =
      .ok { s with p2p := { s.p2p with timeNow := now } } := by
  simp only [p2pParseAes]
  split
  · rfl
  split
  · rfl
  rw [h]

theorem p2pParse_of_linklocal (h : ipIsLinklocal sa = true) :
    p2pParse conf behind now s bencode sa =
      .ok { s with p2p := { s.p2p with timeNow := now } } := by
  simp only [p2pParse, h, if_true, ite_self]

theorem p2pParseAes_of_linklocal (h : ipIsLinklocal sa = true) :
    p2pParseAes ssl key conf behind now s bencode sa =
      .ok { s with p2p := { s.p2p with timeNow := now } } := by
  simp only [p2pParseAes, h, if_true, ite_self]

/-- A valid datagram is decoded, unless its sender is link-local. -/
theorem p2pParse_of_valid (hlocal : ipIsLinklocal sa = false) (h : (benValidate bencode).isSome) :
    p2pParse conf behind now s bencode sa =
      p2pDecode conf behind { s with p2p := { s.p2p with timeNow := now } } bencode sa := by
  obtain ⟨q, hq⟩ := Option.isSome_iff_exists.mp h
  have hsize := benValidate_nonempty hq
  simp only [p2pParse]
  rw [if_neg (by omega), hlocal, if_neg Bool.false_ne_true, hq]

/-- A valid datagram is decrypted, if it comes from another host. -/
theorem p2pParseAes_of_valid
    {key : Bytes} (hlocal : ipIsLinklocal sa = false) (hhost : ipIsLocalhost sa = false)
    (h : (benValidate bencode).isSome) :
    p2pParseAes ssl (some key) conf behind now s bencode sa =
      p2pDecrypt ssl key conf behind { s with p2p := { s.p2p with timeNow := now } } bencode
        sa := by
  obtain ⟨q, hq⟩ := Option.isSome_iff_exists.mp h
  have hsize := benValidate_nonempty hq
  simp only [p2pParseAes]
  rw [if_neg (by omega), hlocal, if_neg Bool.false_ne_true, hq]
  dsimp only
  rw [hhost, if_neg Bool.false_ne_true]

/-- Nothing that fits is cut off. -/
theorem received_of_length_le {datagram : Bytes} (h : datagram.length ≤ udpBuf) :
    received datagram = ⟨buffer datagram [], datagram.length⟩ := by
  rw [received, List.take_of_length_le h]

/-- A datagram that is opened with the key. -/
theorem p2pParseAes_opened (datagram : Bytes) :
    p2pParseAes ssl key conf behind now s (received datagram) sa =
      (p2pParse conf behind now s (received (opened ssl key sa datagram)) sa).mapError
        .daemon := by
  cases key with
  | none =>
      exact p2pParseAes_of_open (.inl rfl)
  | some key =>
  cases hlocal : ipIsLinklocal sa with
  | true =>
      rw [p2pParseAes_of_linklocal hlocal, p2pParse_of_linklocal hlocal]
      rfl
  | false =>
  rw [opened]
  split
  · rename_i h
    rcases h with hhost | hinvalid
    · exact p2pParseAes_of_open (.inr hhost)
    · have hnone := Option.isNone_iff_eq_none.mp hinvalid
      rw [p2pParseAes_of_invalid hnone, p2pParse_of_invalid hnone]
      rfl
  rename_i h
  obtain ⟨hhost, hvalid⟩ := not_or.mp h
  obtain ⟨q, hq⟩ : ∃ q, benValidate (received datagram) = some q :=
    Option.ne_none_iff_exists'.mp fun hnone => hvalid (Option.isNone_iff_eq_none.mpr hnone)
  have hvalid : (benValidate (received datagram)).isSome := by
    rw [hq]
    rfl
  rw [p2pParseAes_of_valid hlocal (Bool.eq_false_iff.mpr hhost) hvalid, p2pDecrypt]
  split
  · rename_i e hdec
    rw [p2pParse_of_valid hlocal hvalid, p2pDecode, hdec]
    rfl
  rename_i packet q' hdec
  have hdrop : (p2pParse conf behind now s (received []) sa).mapError AesFault.daemon =
      .ok { s with p2p := { s.p2p with timeNow := now } } := by
    rw [p2pParse_of_invalid rfl]
    rfl
  cases packet with
  | none =>
      exact hdrop.symm
  | some t =>
  rcases packetPlain_ok (bounded_of_benDec hq hdec) with hnone | ⟨plain, hplain, hle⟩
  · rw [hnone]
    exact hdrop.symm
  · rw [hplain]
    dsimp only
    split
    · exact hdrop.symm
    rw [received_of_length_le (Nat.le_trans hle (by decide))]
    split
    · rename_i hinvalid
      rw [p2pParse_of_invalid hinvalid]
      rfl
    · rename_i hsome
      rw [p2pParse_of_valid hlocal (by rw [hsome]; rfl)]

theorem daemonStepAes_eq (s : Main v) (e : Event v) :
    daemonStepAes ssl key conf s e =
      (daemonStep conf s (openEvent ssl key e)).mapError .daemon := by
  cases e with
  | dns datagram sa => rfl
  | p2p now behind datagram sa => exact p2pParseAes_opened datagram
  | cron now resolved => rfl

end Refine

/-- Whatever a daemon with a key receives and whenever, it goes through the states of a
daemon without a key that receives what the key opens.  What goes wrong in one goes wrong in the
other: no ciphertext is larger than the buffer for its plaintext. -/
theorem run_daemonStepAes
    {v : Build} (ssl : Polarssl) (key : Option Bytes) (conf : Conf) (s : Main v)
    (events : List (Event v)) :
    run (daemonStepAes ssl key conf) s events =
      (run (daemonStep conf) s (events.map (openEvent ssl key))).mapError .daemon := by
  refine (run_related (R := fun e e' => e' = openEvent ssl key e) ?_ ?_ rfl).eq_mapError
  · rintro s _ e _ rfl rfl
    rw [daemonStepAes_eq]
    exact related_mapError _
  · rw [List.forall₂_map_right_iff]
    exact List.forall₂_same.mpr fun _ _ => rfl

/-! ## Who understands whom -/

section Channel

variable {v : Build} {ssl : Polarssl}

theorem length_aesKeySetup (hssl : ssl.Documented) (iv key : Bytes) :
    (aesKeySetup ssl iv key).length = aesKeySize := by
  rw [aesKeySetup, aesKeyRounds, Function.iterate_succ_apply']
  exact hssl.length_sha2 _

/-- What is encrypted comes back, with zeros behind it. -/
theorem aesDecrypt_aesEncrypt
    (hssl : ssl.Documented) {plain : Bytes} (hpos : 0 < plain.length)
    (hle : plain.length ≤ aesMsgSize) (salt : Salt) (key : Bytes) :
    ∃ cipher after, aesEncrypt ssl plain salt.bytes key = some cipher ∧
      plain.length ≤ cipher.length ∧ cipher.length < plain.length + aesBlockSize ∧
      aesDecrypt ssl cipher salt.bytes key = .ok (some (plain ++ after)) := by
  have hsalt : salt.bytes.length = aesIvSize := Nat.le_antisymm salt.length_le salt.le_length
  have hkey := length_aesKeySetup hssl salt.bytes key
  rw [aesEncrypt, if_neg (by omega)]
  dsimp only
  generalize hpadded : (if plain.length % aesBlockSize = 0 then plain.length
    else plain.length - plain.length % aesBlockSize + aesBlockSize) = padded
  have hbounds : plain.length ≤ padded ∧ padded < plain.length + aesBlockSize ∧
      padded % aesBlockSize = 0 ∧ padded ≤ aesMsgSize := by
    rw [aesBlockSize] at *
    rw [aesMsgSize] at *
    split at hpadded <;> omega
  obtain ⟨hpadded_ge, hpadded_lt, hblocks, hpadded_le⟩ := hbounds
  rw [if_neg (by omega)]
  have hlen : (plain ++ List.replicate (padded - plain.length) 0).length = padded := by
    rw [List.length_append, List.length_replicate]
    omega
  obtain ⟨cipher, henc, hcipher, hdec⟩ := hssl.cbc (aesKeySetup ssl salt.bytes key) salt.bytes
    (plain ++ List.replicate (padded - plain.length) 0) hkey hsalt (by rw [hlen, hblocks])
  have hcopy : copy (buffer (plain ++ List.replicate (padded - plain.length) 0) []) 0
      cipher.length = plain ++ List.replicate (padded - plain.length) 0 := by
    rw [hcipher]
    exact copy_of_holds (holds_buffer_self _ _)
  rw [hlen] at hcipher
  refine ⟨cipher, List.replicate (padded - plain.length) 0, henc, by omega, by omega, ?_⟩
  rw [aesDecrypt, if_neg (by rw [hcipher]; exact not_not.mpr hblocks), if_neg (by omega), hdec,
    Option.map_some, hcopy]

theorem bounded_aesDict {aes : Bytes} (h : aes.length ≤ benStrMaxsize) (salt : Salt) :
    (aesDict aes salt.bytes).Bounded :=
  boundedDict_entry (by decide) h
    (boundedDict_entry (by decide) (salt.length_le_of_le (by decide)) trivial)

@[simp] theorem search_aesDict_a (aes salt : Bytes) :
    benDictSearchStr (some (aesDict aes salt)) "a" = some (.str aes) :=
  benDictSearchStr_entry_self

@[simp] theorem search_aesDict_s (aes salt : Bytes) :
    benDictSearchStr (some (aesDict aes salt)) "s" = some (.str salt) := by
  simp (disch := decide) [aesDict, benDictSearchStr_entry_of_ne]

@[simp] theorem search_aesDict_y (aes salt : Bytes) :
    benDictSearchStr (some (aesDict aes salt)) "y" = none := by
  simp (disch := decide) [aesDict, benDictSearchStr_entry_of_ne]

/-- No message has a salt. -/
theorem Message.search_dict_s (me : NodeId) (m : Message v) :
    benDictSearchStr (some (m.dict me)) "s" = none := by
  cases m with
  | query q =>
      rw [dict, Query.dict_eq]
      simp (disch := decide) [queryDict, benDictSearchStr_entry_of_ne]
  | answer a =>
      rw [dict, Answer.dict_eq]
      simp (disch := decide) [replyDict, benDictSearchStr_entry_of_ne]

/-- A ciphertext that decrypts to a message. -/
structure Seals (ssl : Polarssl) (key aes : Bytes) (salt : Salt) (raw : Bytes) : Prop where
  length_gt : 2 < aes.length
  length_le : aes.length ≤ 527
  decrypt : ∃ after, aesDecrypt ssl aes salt.bytes key = .ok (some (raw ++ after))

/-- No message is too large to be encrypted. -/
theorem exists_seals
    (hssl : ssl.Documented) (key : Bytes) (salt : Salt) (me : NodeId) (m : Message v) (dst : Ip v) :
    ∃ aes, Seals ssl key aes salt (m.raw me) ∧
      sendAes ssl key salt ⟨dst, m.raw me⟩ =
        some ⟨dst, benEncRec (aesDict aes salt.bytes)⟩ := by
  have hge := m.le_length_raw me
  have hle := m.length_raw_le me
  have hmax : 512 ≤ aesMsgSize := by decide
  have hblock : aesBlockSize = 16 := rfl
  obtain ⟨aes, after, henc, hlen, hlt, hdec⟩ :=
    aesDecrypt_aesEncrypt hssl (by omega) (Nat.le_trans hle hmax) salt key
  refine ⟨aes, ⟨by omega, by omega, after, hdec⟩, ?_⟩
  rw [sendAes, henc, Option.bind_some, sendUdp, benEnc_eq]
  rfl

namespace Seals

variable {key aes : Bytes} {salt : Salt} {raw : Bytes}

theorem length_raw_le (h : Seals ssl key aes salt raw) :
    (benEncRec (aesDict aes salt.bytes)).length ≤ udpBuf := by
  have haes := h.length_le
  have hsalt : (benEncRec (.str salt.bytes)).length ≤ 20 :=
    length_benEncRec_str_le salt.length_le (by decide)
  have hs := length_benEncRecDict_entry_le "s" (d := []) (m := 0) (by decide) hsalt (Nat.le_refl 0)
  have ha := length_benEncRecDict_entry_le "a" (by decide)
    (length_benEncRec_str_le haes (by decide)) hs
  exact Nat.le_trans (length_benEncRec_dict_le ha) (by decide)

/-- The receiver decodes the two strings. -/
theorem decoded (h : Seals ssl key aes salt raw) :
    benValidate (received (benEncRec (aesDict aes salt.bytes))) =
        some (benEncRec (aesDict aes salt.bytes)).length ∧
      benDec (received (benEncRec (aesDict aes salt.bytes))) =
        .ok (some (aesDict aes salt.bytes), (benEncRec (aesDict aes salt.bytes)).length) := by
  have hbound : aes.length ≤ benStrMaxsize := Nat.le_trans h.length_le (by decide)
  rw [received_of_length_le h.length_raw_le]
  exact (benDec_benEnc (bounded_aesDict hbound salt) []).2

/-- And decrypts them. -/
theorem packetPlain_eq (h : Seals ssl key aes salt raw) :
    ∃ after, packetPlain ssl key (some (aesDict aes salt.bytes)) = .ok (some (raw ++ after)) := by
  obtain ⟨after, hdec⟩ := h.decrypt
  have hsalt : salt.bytes.length = aesIvSize := Nat.le_antisymm salt.length_le salt.le_length
  have hgt := h.length_gt
  refine ⟨after, ?_⟩
  rw [packetPlain, search_aesDict_s, search_aesDict_a]
  simp only [benStrS, aesDict, benIsDict, not_true_eq_false, if_false, hsalt, ne_eq]
  rw [if_neg (by omega), hdec]

end Seals

section Receiver

variable {key aes : Bytes} {salt : Salt} {me : NodeId} {m : Message v} {conf : Conf}
  {behind : Bytes} {now : Int} {s : Main v} {src : Ip v}

/-- What lies behind a message does not matter. -/
theorem p2pParse_append (after : Bytes) (hle : (m.raw me ++ after).length ≤ udpBuf) :
    p2pParse conf behind now s (received (m.raw me ++ after)) src =
      p2pParse conf behind now s (received (m.raw me)) src := by
  cases hlocal : ipIsLinklocal src with
  | true =>
      rw [p2pParse_of_linklocal hlocal, p2pParse_of_linklocal hlocal]
  | false =>
  have hparse : ∀ after : Bytes, (m.raw me ++ after).length ≤ udpBuf →
      (benValidate (received (m.raw me ++ after))).isSome ∧
        benDec (received (m.raw me ++ after)) =
          .ok (some (m.dict me), (m.raw me).length) := by
    intro after hle
    obtain ⟨d, hyield, hben⟩ := exists_derivation _ (m.bounded_dict me)
    have hstart : d.yield <+: m.raw me ++ after := by
      rw [hyield]
      exact List.prefix_append _ _
    obtain ⟨hvalid, hdec⟩ := parsers_of_isPrefix [] hstart
    rw [received_of_length_le hle, hvalid, hdec, hben, hyield]
    exact ⟨rfl, rfl⟩
  have hshort : (m.raw me ++ []).length ≤ udpBuf :=
    Nat.le_trans (by rw [List.append_nil, List.length_append]; omega) hle
  obtain ⟨hvalid, hdec⟩ := hparse after hle
  obtain ⟨hvalid', hdec'⟩ := hparse [] hshort
  rw [List.append_nil] at hvalid' hdec'
  rw [p2pParse_of_valid hlocal hvalid, p2pParse_of_valid hlocal hvalid', p2pDecode, p2pDecode, hdec,
    hdec']

/-- A daemon with the same key reads the message, if it comes from another host. -/
theorem p2pParseAes_sealed
    (h : Seals ssl key aes salt (m.raw me)) (hhost : ipIsLocalhost src = false) :
    p2pParseAes ssl (some key) conf behind now s
        (received (benEncRec (aesDict aes salt.bytes))) src =
      (p2pParse conf behind now s (received (m.raw me)) src).mapError .daemon := by
  obtain ⟨after, hplain⟩ := h.packetPlain_eq
  obtain ⟨hvalid, hdec⟩ := h.decoded
  have hbounded : (aesDict aes salt.bytes).Bounded :=
    bounded_aesDict (Nat.le_trans h.length_le (by decide)) salt
  have hle : (m.raw me ++ after).length ≤ benStrMaxsize := by
    rcases packetPlain_ok hbounded with hnone | ⟨plain, hsome, hle⟩
    · rw [hplain] at hnone
      cases hnone
    · rw [hplain] at hsome
      cases hsome
      exact hle
  have hlong := m.le_length_raw me
  have hsize : ¬ (m.raw me ++ after).length < sha1Size := by
    rw [List.length_append, sha1Size]
    omega
  rw [p2pParseAes_opened, opened]
  simp only [hhost, hvalid, hdec, hplain, if_neg hsize, Option.isNone_some, Bool.false_eq_true,
    or_self, if_false]
  rw [p2pParse_append after (Nat.le_trans hle (by decide))]

/-- A daemon that expects a message drops it. -/
theorem p2pParse_sealed (h : Seals ssl key aes salt (m.raw me)) :
    p2pParse conf behind now s (received (benEncRec (aesDict aes salt.bytes))) src =
      .ok { s with p2p := { s.p2p with timeNow := now } } := by
  obtain ⟨hvalid, hdec⟩ := h.decoded
  cases hlocal : ipIsLinklocal src with
  | true =>
      exact p2pParse_of_linklocal hlocal
  | false =>
      rw [p2pParse_of_valid hlocal (by rw [hvalid]; rfl), p2pDecode, hdec]
      have hy := search_aesDict_y aes salt.bytes
      rw [aesDict] at hy ⊢
      simp only [hy, benStrS]

/-- A daemon that expects a ciphertext drops a message. -/
theorem p2pParseAes_message (hhost : ipIsLocalhost src = false) :
    p2pParseAes ssl (some key) conf behind now s (received (m.raw me)) src =
      .ok { s with p2p := { s.p2p with timeNow := now } } := by
  cases hlocal : ipIsLinklocal src with
  | true =>
      exact p2pParseAes_of_linklocal hlocal
  | false =>
      have hle : (m.raw me).length ≤ udpBuf := Nat.le_trans (m.length_raw_le me) (by decide)
      obtain ⟨-, hvalid, hdec⟩ := benDec_benEnc (m.bounded_dict me) []
      have hsome : (benValidate ⟨buffer (m.raw me) [], (m.raw me).length⟩).isSome := by
        rw [Message.raw, hvalid]
        rfl
      rw [received_of_length_le hle, p2pParseAes_of_valid hlocal hhost hsome, p2pDecrypt,
        Message.raw, hdec]
      simp only [packetPlain, m.search_dict_s me, benStrS, ite_self]

end Receiver

/-- A message of a daemon is read by another one, as if nothing was encrypted, exactly if both or
none of them have the key, where a message from the own host is expected without one.
Otherwise it is dropped.  So two daemons with a key on one host do not hear each other. -/
theorem channel_modes
    (hssl : ssl.Documented) {key key' : Option Bytes}
    (hkeys : ∀ k k', key = some k → key' = some k' → k = k') (me : NodeId) (m : Message v)
    (salt : Salt) (dst : Ip v) :
    ∃ d, sendRaw ssl key salt ⟨dst, m.raw me⟩ = some d ∧ d.addr = dst ∧ d.raw.length ≤ udpBuf ∧
      ∀ (conf : Conf) (behind : Bytes) (now : Int) (s : Main v) (src : Ip v),
        p2pParseAes ssl key' conf behind now s (received d.raw) src =
          if key.isSome = (key'.isSome && !ipIsLocalhost src) then
            (p2pParse conf behind now s (received (m.raw me)) src).mapError .daemon
          else .ok { s with p2p := { s.p2p with timeNow := now } } := by
  cases key with
  | none =>
      refine ⟨_, rfl, rfl, Nat.le_trans (m.length_raw_le me) (by decide), ?_⟩
      intro conf behind now s src
      cases key' with
      | none =>
          exact p2pParseAes_of_open (.inl rfl)
      | some k' =>
          cases hhost : ipIsLocalhost src with
          | true => exact p2pParseAes_of_open (.inr hhost)
          | false => exact p2pParseAes_message hhost
  | some k =>
      obtain ⟨aes, hseals, hsend⟩ := exists_seals hssl k salt me m dst
      refine ⟨_, hsend, rfl, hseals.length_raw_le, ?_⟩
      intro conf behind now s src
      have hdrop : (p2pParse conf behind now s (received (benEncRec (aesDict aes salt.bytes)))
          src).mapError AesFault.daemon = .ok { s with p2p := { s.p2p with timeNow := now } } := by
        rw [p2pParse_sealed hseals]
        rfl
      cases key' with
      | none =>
          exact (p2pParseAes_of_open (.inl rfl)).trans hdrop
      | some k' =>
          cases hkeys k k' rfl rfl
          cases hhost : ipIsLocalhost src with
          | true => exact (p2pParseAes_of_open (.inr hhost)).trans hdrop
          | false => exact p2pParseAes_sealed hseals hhost

end Channel

/-! ## An example -/

/-- The key `key` with a salt of zeros: the digests of `aes_key_setup`. -/
def keyDigests : List Bytes :=
  [List.replicate aesKeySize 0,
    [221, 254, 41, 195, 92, 24, 117, 116, 117, 189, 204, 220, 77, 151, 162, 232, 42, 209,
      255, 255, 255, 40, 227, 185, 100, 100, 36, 74, 144, 191, 62, 161],
    [63, 100, 94, 67, 13, 0, 228, 209, 152, 22, 217, 237, 31, 201, 77, 85, 51, 171, 183, 84,
      66, 155, 188, 69, 22, 129, 199, 17, 77, 233, 99, 15],
    [1, 84, 243, 220, 205, 85, 39, 95, 140, 253, 114, 93, 130, 50, 35, 120, 141, 244, 70, 7,
      21, 113, 70, 137, 230, 205, 20, 135, 60, 147, 178, 110],
    [82, 210, 156, 31, 75, 160, 13, 148, 129, 150, 227, 253, 135, 124, 10, 214, 19, 218, 150,
      209, 48, 9, 10, 127, 41, 179, 15, 89, 128, 113, 52, 186],
    [149, 159, 167, 157, 100, 236, 214, 167, 210, 12, 43, 185, 179, 157, 105, 238, 252, 97,
      131, 113, 119, 196, 244, 8, 66, 111, 110, 121, 105, 34, 111, 81],
    [171, 46, 232, 105, 147, 216, 51, 171, 79, 48, 58, 87, 251, 68, 211, 59, 157, 51, 221,
      90, 192, 112, 248, 149, 58, 200, 31, 25, 137, 205, 59, 35],
    [187, 106, 143, 15, 70, 80, 94, 87, 230, 190, 244, 39, 225, 111, 95, 46, 224, 143, 140,
      44, 190, 210, 187, 2, 104, 141, 15, 235, 31, 111, 210, 59],
    [79, 223, 83, 0, 244, 193, 59, 69, 38, 113, 213, 46, 161, 154, 150, 79, 23, 208, 247,
      167, 242, 225, 87, 133, 132, 167, 17, 154, 71, 237, 35, 191]]

/-- That salt. -/
def zeroSalt : Salt :=
  ⟨List.replicate aesIvSize 0, Nat.le_of_eq List.length_replicate.symm,
    Nat.le_of_eq List.length_replicate⟩

/-- A ping. -/
def pingMessage : Message .ipv4 :=
  .query (.ping ⟨[0, 0, 0, 1], Nat.le_refl 4, Nat.le_refl 4⟩)

/-- The ping, as `aes_encrypt` pads it. -/
def pingPadded : Bytes :=
  pingMessage.raw .zero ++ List.replicate 6 0

/-- Its ciphertext. -/
def pingCipher : Bytes :=
  [188, 6, 243, 40, 146, 141, 251, 181, 223, 182, 133, 40, 239, 61, 17, 171, 89, 206, 99,
    221, 44, 160, 20, 23, 61, 37, 84, 44, 255, 198, 197, 71, 41, 202, 213, 147, 15, 231,
    115, 215, 23, 238, 174, 94, 89, 228, 161, 149, 204, 91, 71, 201, 119, 106, 69, 223, 196,
    35, 0, 214, 73, 76, 63, 199]

/-- The pong. -/
def pongMessage : Message .ipv4 :=
  .answer ⟨.pong, ⟨[0, 0, 0, 1], by decide, by decide⟩⟩

def pongPadded : Bytes :=
  pongMessage.raw onesConf.nodeId ++ List.replicate 15 0

def pongCipher : Bytes :=
  [158, 77, 243, 238, 17, 242, 137, 180, 72, 62, 86, 136, 67, 212, 87, 225, 242, 161, 132,
    249, 186, 73, 188, 159, 214, 185, 142, 221, 95, 168, 200, 171, 218, 11, 89, 147, 128,
    163, 233, 116, 88, 24, 229, 0, 128, 162, 219, 49, 162, 71, 149, 179, 82, 219, 165, 20,
    20, 156, 60, 110, 91, 94, 169, 63]

/-- The cipher for the last of the digests, as far as it is known here. -/
def keyCipher : Equiv.Perm Bytes :=
  (Equiv.swap pingPadded pingCipher).trans (Equiv.swap pongPadded pongCipher)

/-- What SHA-256 and AES-256 do with the key, the salt and the two messages. -/
def keyPolarssl : Polarssl where
  sha2 input :=
    match (keyDigests.zip keyDigests.tail).find? fun step => step.1 ++ cstr "key" = input with
    | some step => step.2
    | none => List.replicate aesKeySize 0
  encrypt _ _ input := some (keyCipher input)
  decrypt _ _ input := some (keyCipher.symm input)

theorem length_swap
    {a b : Bytes} (h : a.length = b.length) (input : Bytes) :
    (Equiv.swap a b input).length = input.length := by
  rw [Equiv.swap_apply_def]
  split
  · rename_i heq
    rw [heq, h]
  split
  · rename_i heq
    rw [heq, h]
  · rfl

theorem documented_keyPolarssl : keyPolarssl.Documented where
  length_sha2 input := by
    simp only [keyPolarssl]
    split
    · rename_i step hstep
      have hdigests : ∀ step ∈ keyDigests.zip keyDigests.tail, step.2.length = aesKeySize := by
        decide
      exact hdigests step (List.mem_of_find?_eq_some hstep)
    · exact List.length_replicate
  cbc key iv input _ _ _ := by
    refine ⟨_, rfl, ?_, congrArg some (keyCipher.symm_apply_apply input)⟩
    have hping : pingPadded.length = pingCipher.length := by decide +kernel
    have hpong : pongPadded.length = pongCipher.length := by decide +kernel
    rw [keyCipher, Equiv.trans_apply, length_swap hpong, length_swap hping]

/-- A ping between two daemons with the key. -/
theorem channel_modes_ping :
    keyPolarssl.Documented ∧
      ∃ d, sendRaw keyPolarssl (some (cstr "key")) zeroSalt
          ⟨.ofQuad 10 0 0 1 (26, 225), pingMessage.raw .zero⟩ = some d ∧
        d.addr = .ofQuad 10 0 0 1 (26, 225) ∧ d.raw.length ≤ udpBuf ∧
        ∀ (conf : Conf) (behind : Bytes) (now : Int) (s : Main .ipv4) (src : Ip .ipv4),
          p2pParseAes keyPolarssl (some (cstr "key")) conf behind now s (received d.raw) src =
            if true = (true && !ipIsLocalhost src) then
              (p2pParse conf behind now s (received (pingMessage.raw .zero)) src).mapError .daemon
            else .ok { s with p2p := { s.p2p with timeNow := now } } := by
  refine ⟨documented_keyPolarssl, ?_⟩
  have hkeys : ∀ k k', some (cstr "key") = some k → some (cstr "key") = some k' → k = k' := by
    intro k k' h h'
    cases h
    cases h'
    rfl
  exact channel_modes documented_keyPolarssl hkeys .zero pingMessage zeroSalt _

end Torrentkino
