import Torrentkino.P2p.Act
import Torrentkino.Shr.Index

/-!
# The life of a token

`p2p_cron` creates a token every few minutes and expires old ones once a minute,
but only while the node knows others.  The two timers are independent and both
have a jitter.  What ties them together is that the newest token outlives the
time at which the next one is due, so the round that could expire it creates
another one first.

A token is handed out until there is a newer one.  While the neighbourhood is
empty there is none, and what is handed out in the end may have expired long ago.

**Results.**
* `token_available`: there is always a token to hand out, and it is accepted.
* `token_outlives_answer`: an announce that comes within a minute of the answer finds its
  token accepted, if the token had that long to live when it was handed out.
-/

namespace Torrentkino

open Memory Simulation

/-! ## What events do to the tokens -/

section Frame

variable {v : Build} {conf : Conf} {s s' s'' : Main v}

/-- The clock, the timers of the tokens and the tokens are as they were. -/
structure KeepsTokens (s s' : Main v) : Prop where
  timers : SameTimers s.p2p s'.p2p
  token : s'.token = s.token

namespace KeepsTokens

theorem of_eq (hp2p : s'.p2p = s.p2p) (htoken : s'.token = s.token) : KeepsTokens s s' where
  timers := by
    rw [hp2p]
    exact ⟨rfl, rfl, rfl⟩
  token := htoken

theorem refl (s : Main v) : KeepsTokens s s :=
  .of_eq rfl rfl

theorem trans (h : KeepsTokens s s') (h' : KeepsTokens s' s'') : KeepsTokens s s'' where
  timers :=
    { now := h'.timers.now.trans h.timers.now
      token := h'.timers.token.trans h.timers.token
      expire := h'.timers.expire.trans h.timers.expire }
  token := h'.token.trans h.token

end KeepsTokens

theorem keepsTokens_getNodesQuery (l : Ref) (tid : Bytes) (s : Main v) (node : NodeId × Ip v) :
    KeepsTokens s (getNodesQuery conf l tid s node) := by
  rw [getNodesQuery]
  split
  · exact .refl s
  split
  · exact .refl s
  dsimp only
  split
  · exact .of_eq rfl rfl
  split
  · exact .of_eq rfl rfl
  split
  · exact .of_eq rfl rfl
  · exact .of_eq rfl rfl

theorem keepsTokens_values
    {id : NodeId} {ti : Ref} {token : Bytes} {values : List Ben} {sa : Ip v}
    (h : p2pGetPeersGetValues s id ti token values sa = .ok s') :
    KeepsTokens s s' := by
  rcases p2pGetPeersGetValues_cases h with
    rfl | ⟨l, lookup, -, rfl | ⟨pairs, -, -, -, hanswer⟩⟩
  · exact .refl _
  · exact .of_eq rfl rfl
  · obtain ⟨put, -, cache, sent, rfl, -⟩ := answerInitiator_cases hanswer
    exact .of_eq rfl rfl

theorem keepsTokens_actStep
    {a : Act v} (hsteady : a.Steady s) (h : actStep conf s a = .ok s') :
    KeepsTokens s s' := by
  cases a with
  | event | names names | found r time | tdbPut type other | send sa dict other | respond d =>
      cases h
      exact .of_eq rfl rfl
  | store m =>
      cases h
      exact .of_eq hsteady.1 hsteady.2
  | nbhd op =>
      rw [actStep] at h
      split at h
      · cases h
      · cases h
        exact .of_eq rfl rfl
  | tdbDel ti =>
      cases hsteady
  | lookup target type owner query =>
      cases h
      refine List.foldlRecOn (motive := KeepsTokens s) _ _ (.of_eq rfl rfl) ?_
      exact fun s₁ h₁ node _ => h₁.trans (.of_eq rfl rfl)
  | nodes id ti tid token nodes sa =>
      cases h
      rw [p2pGetPeersGetNodes]
      split
      · exact .refl _
      · refine List.foldlRecOn (motive := KeepsTokens s) _ _ (.of_eq rfl rfl) ?_
        exact fun s₁ h₁ node _ => h₁.trans (keepsTokens_getNodesQuery _ tid s₁ node)
  | values id ti token values sa =>
      exact keepsTokens_values h

theorem SteadyActs.keepsTokens (h : SteadyActs conf s s') : KeepsTokens s s' :=
  Leads.lift KeepsTokens.refl KeepsTokens.trans keepsTokens_actStep h

theorem keepsTokens_replyCleanup (type : TidType) (ti : Ref) (s : Main v) :
    KeepsTokens s (replyCleanup type ti s) := by
  cases type <;> exact .of_eq rfl rfl

/-- A datagram sets the clock. -/
theorem keepsTokens_p2pParse
    {behind : Bytes} {now : Int} {bencode : Raw} {sa : Ip v}
    (h : p2pParse conf behind now s bencode sa = .ok s') :
    KeepsTokens { s with p2p := { s.p2p with timeNow := now } } s' := by
  rcases p2pParse_cases h with rfl | ⟨-, -, packet, ⟨-, hrun⟩ | ⟨-, hrun⟩⟩
  · exact .refl _
  · exact (calm_p2pRequest (A := fun _ => True) trivial hrun).steady.keepsTokens
  · rcases p2pReply_cases hrun with
      ⟨rfl, -⟩ | ⟨head, -, ⟨rfl, -⟩ | ⟨ti, type, s₁, -, -, hhandled, rfl⟩⟩
    · exact .refl _
    · exact .of_eq rfl rfl
    refine KeepsTokens.trans ?_ (keepsTokens_replyCleanup type ti s₁)
    rcases hhandled with rfl | ⟨reply, -, hreply⟩
    · exact .of_eq rfl rfl
    · obtain ⟨htimers, htoken⟩ := (steady_handleReply hreply).keepsTokens
      exact ⟨htimers, htoken⟩

theorem keepsTokens_tdbExpireItem (s : Main v) (ti : Ref) :
    KeepsTokens s (tdbExpireItem conf s ti) := by
  rcases tdbExpireItem_cases conf s ti with heq | ⟨tid, s₁, -, -, ⟨-, rfl⟩ | ⟨-, rfl⟩, heq⟩
  · rw [heq]
    exact .refl _
  · rw [heq]
    exact KeepsTokens.trans
      (calm_p2pCronAnnounce (A := fun _ => True) s ti).steady.keepsTokens (.of_eq rfl rfl)
  · rw [heq]
    exact .of_eq rfl rfl

theorem keepsTokens_calmTasks
    {tasks : List (Main v → Except Fault (Main v))} (htasks : tasks = calmTasks conf)
    (h : tasks.foldlM (fun s task => task s) s = .ok s') :
    KeepsTokens s s' := by
  subst htasks
  refine foldlM_rel KeepsTokens.refl KeepsTokens.trans (fun task htask {s s'} hrun => ?_) h
  rcases calmTasks_cases (A := fun _ => True) htask hrun with
    rfl | ⟨s₁, p, rnd, hcalm, htimers, rfl⟩
  · exact .refl _
  · exact hcalm.steady.keepsTokens.trans ⟨htimers, rfl⟩

/-- A jitter stays below its bound. -/
theorem timeAddApprox_bounds
    (base : Nat) {jitter : Nat} (hjitter : 0 < jitter) (now : Int) (rnd : Random) :
    now + base ≤ (timeAddApprox base jitter now rnd).1 ∧
      (timeAddApprox base jitter now rnd).1 < now + base + jitter := by
  have hlt := Nat.mod_lt (rnd.draw).1 hjitter
  simp only [timeAddApprox]
  omega

/-- The expiry of tokens comes with that of all other objects. -/
theorem cronExpire_tokens (h : cronExpire conf s = .ok s') :
    SameTimers s.p2p s'.p2p ∧ s'.token = tknExpire s.now s.token := by
  obtain ⟨s₁, hrun, rfl⟩ := map_eq_ok h
  have hkeeps :=
    tdbExpireLoop_rel KeepsTokens.refl KeepsTokens.trans keepsTokens_tdbExpireItem hrun
  refine ⟨hkeeps.timers, ?_⟩
  have hnow : s₁.now = s.now := hkeeps.timers.now
  dsimp only
  rw [hkeeps.token, hnow]

/-- A tick at `now` while the node knows nobody, and otherwise: a token is
created when one is due, and then old tokens may be expired. -/
theorem p2pCron_tokens
    {now : Int} {resolved : List (List (Ip v))} (h : p2pCron conf now resolved s = .ok s') :
    s'.now = now ∧
      (nbhdIsEmpty s.nbhd = true ∧ s'.token = s.token ∧
          s'.p2p.timeToken = s.p2p.timeToken ∨
        nbhdIsEmpty s.nbhd = false ∧ ∃ token,
          (now ≤ s.p2p.timeToken ∧ token = s.token ∧
              s'.p2p.timeToken = s.p2p.timeToken ∨
            s.p2p.timeToken < now ∧ token = (tknPut now s.token s.random).1 ∧
              s'.p2p.timeToken < now + 360) ∧
          (s'.token = token ∨ s'.token = tknExpire now token)) := by
  simp only [p2pCron] at h
  split at h
  · rename_i hempty
    have hcalm := calm_periodic (A := fun _ => True) h
      (fun {s s'} hrun => by
        cases hrun
        exact calm_p2pBootstrap _ _)
      fun _ _ => ⟨rfl, rfl, rfl⟩
    have hkeeps : KeepsTokens { s with p2p := { s.p2p with timeNow := now } } s' := by
      rcases hcalm with rfl | ⟨s₁, p, rnd, hcalm, htimers, rfl⟩
      · exact .refl _
      · exact hcalm.steady.keepsTokens.trans ⟨htimers, rfl⟩
    exact ⟨hkeeps.timers.now, .inl ⟨hempty, hkeeps.token, hkeeps.timers.token⟩⟩
  · rename_i hempty
    have hnonempty : nbhdIsEmpty s.nbhd = false := Bool.eq_false_iff.mpr hempty
    obtain ⟨s₁, hcreate, h⟩ := bind_eq_ok h
    obtain ⟨s₂, hexpire, h⟩ := bind_eq_ok h
    have hkeeps := keepsTokens_calmTasks rfl h
    have hexpired : s₂.now = s₁.now ∧ s₂.p2p.timeToken = s₁.p2p.timeToken ∧
        (s₂.token = s₁.token ∨ s₂.token = tknExpire s₁.now s₁.token) := by
      rcases periodic_cases hexpire with ⟨-, rfl⟩ | ⟨-, s₃, hrun, rfl⟩
      · exact ⟨rfl, rfl, .inl rfl⟩
      · obtain ⟨htimers, htoken⟩ := cronExpire_tokens hrun
        exact ⟨htimers.now, htimers.token, .inr htoken⟩
    obtain ⟨hnow, htime, htoken⟩ := hexpired
    have htoken' : s'.token = s₁.token ∨ s'.token = tknExpire s₁.now s₁.token := by
      rwa [hkeeps.token]
    have hnow' : s'.now = s₁.now := hkeeps.timers.now.trans hnow
    have htime' : s'.p2p.timeToken = s₁.p2p.timeToken := hkeeps.timers.token.trans htime
    rw [hnow', htime']
    rcases periodic_cases hcreate with ⟨hdue, rfl⟩ | ⟨hdue, s₃, hrun, rfl⟩
    · exact ⟨rfl, .inr ⟨hnonempty, s.token, .inl ⟨hdue, rfl, rfl⟩, htoken'⟩⟩
    · cases hrun
      have hbound := (timeAddApprox_bounds 240 (by decide : 0 < 120) now
        (tknPut now s.token s.random).2).2
      exact ⟨rfl, .inr ⟨hnonempty, _, .inr ⟨hdue, rfl, by
        refine lt_of_lt_of_eq hbound ?_
        push_cast
        ring⟩, htoken'⟩⟩

end Frame

/-! ## The newest token -/

section Newest

variable {s : Token} {r : Ref} {tkn : Tkn}

/-- The token at the end of the list. -/
structure Newest (s : Token) (r : Ref) (tkn : Tkn) : Prop where
  last : s.tokens.list.getLast? = some r
  get : s.tokens.heap.get r = some tkn

theorem Newest.tknRead (h : Newest s r tkn) : tknRead s = some tkn.id := by
  simp [Torrentkino.tknRead, h.last, h.get]

theorem newest_tknPut (now : Int) (s : Token) (rnd : Random) :
    ∃ tkn, Newest (tknPut now s rnd).1 s.tokens.heap.fresh tkn ∧ tkn.time = now + 1800 := by
  refine ⟨_, ⟨?_, Heap.get_alloc_self _ _⟩, rfl⟩
  simp [tknPut, Table.append, Table.insert]

theorem tknDel_list (s : Token) (q : Ref) (hq : s.tokens.heap.Live q) :
    (tknDel s q).tokens.list = s.tokens.list.erase q := by
  obtain ⟨tkn, htkn⟩ := hq
  rw [tknDel, htkn]
  rfl

theorem get_tknDel_of_ne (s : Token) {q : Ref} (hne : r ≠ q) :
    (tknDel s q).tokens.heap.get r = s.tokens.heap.get r := by
  rw [tknDel]
  split
  · rfl
  · exact Heap.get_free_of_ne _ hne

theorem getLast?_erase_of_ne
    {l : List Ref} {r q : Ref} (h : l.getLast? = some r) (hne : q ≠ r) :
    (l.erase q).getLast? = some r := by
  obtain ⟨l', rfl⟩ := List.getLast?_eq_some_iff.mp h
  by_cases hq : q ∈ l'
  · rw [List.erase_append_left _ hq, List.getLast?_concat]
  · rw [List.erase_append_right _ hq, List.erase_of_not_mem (by simpa using hne),
      List.getLast?_concat]

/-- A token that has expired is not one that has not. -/
theorem ne_of_expired
    {now : Int} {q : Ref} (hget : s.tokens.heap.get r = some tkn) (hlive : now ≤ tkn.time)
    (hexpired : (s.tokens.heap.get q).any fun tkn => now > tkn.time) :
    q ≠ r := by
  rintro rfl
  rw [hget] at hexpired
  exact absurd hlive (not_le.mpr (of_decide_eq_true hexpired))

/-- A token stays while it has not expired. -/
theorem get_tknExpire
    {now : Int} (hget : s.tokens.heap.get r = some tkn) (hlive : now ≤ tkn.time) :
    (tknExpire now s).tokens.heap.get r = some tkn := by
  refine List.foldlRecOn
    (motive := fun s : Token => s.tokens.heap.get r = some tkn) _ _ hget ?_
  intro s hs q _
  split
  · rename_i hexpired
    exact (get_tknDel_of_ne s (ne_of_expired hs hlive hexpired).symm).trans hs
  · exact hs

/-- And the newest one stays the newest. -/
theorem Newest.tknExpire {now : Int} (h : Newest s r tkn) (hlive : now ≤ tkn.time) :
    Newest (tknExpire now s) r tkn := by
  refine List.foldlRecOn (motive := fun s => Newest s r tkn) _ _ h ?_
  intro s hs q _
  split
  · rename_i hexpired
    have hne := ne_of_expired hs.get hlive hexpired
    obtain ⟨tkn', hget, -⟩ := (Option.any_eq_true _ _).mp hexpired
    refine ⟨?_, (get_tknDel_of_ne s hne.symm).trans hs.get⟩
    rw [tknDel_list s q ⟨tkn', hget⟩]
    exact getLast?_erase_of_ne hs.last hne
  · exact hs

/-- A token is found under its id, whatever lies behind it in memory. -/
theorem tknValidate_of_get
    (hindexed : s.tokens.Indexed Tkn.id) (hget : s.tokens.heap.get r = some tkn) {mem : Mem}
    (hmem : Holds mem 0 tkn.id) :
    tknValidate s mem = true := by
  have hcopy : copy mem 0 tokenSize = tkn.id := by
    rw [← tkn.id_length]
    exact copy_of_holds hmem
  have hfind := (hindexed.find_eq_some_iff tkn.id r).mpr ⟨tkn, hget, rfl⟩
  rw [tknValidate, hcopy, hfind]
  rfl

theorem indexed_tknPut
    {now : Int} {rnd : Random} (h : s.tokens.Indexed Tkn.id)
    (hunused : hashExists s.tokens.hash (tknCreate s rnd).1 = false) :
    (tknPut now s rnd).1.tokens.Indexed Tkn.id := by
  refine Table.Indexed.append (a := ⟨(tknCreate s rnd).1, length_randUnused _ _ _ _, _⟩) h ?_
  have hnone : hashGet s.tokens.hash (tknCreate s rnd).1 = none := by
    simpa [hashExists] using hunused
  exact hnone

theorem indexed_tknExpire (h : s.tokens.Indexed Tkn.id) (now : Int) :
    (tknExpire now s).tokens.Indexed Tkn.id := by
  refine List.foldlRecOn (motive := fun s : Token => s.tokens.Indexed Tkn.id) _ _ h ?_
  intro s hs q _
  split
  · rw [tknDel]
    split
    · exact hs
    · rename_i tkn htkn
      exact hs.remove htkn
  · exact hs

end Newest

/-! ## The first query after a long silence -/

/-- The query of a node that has just started. -/
def peersQuery : Query :=
  .getPeers .zero ⟨[0, 0, 0, 1], by decide, by decide⟩

/-- It arrives at some time. -/
def queriesPeers (now : Int) : Event .ipv4 :=
  .p2p now [] (benEncRec (peersQuery.dict .zero)) (.ofQuad 10 0 0 9 (26, 225))

/-- The state after the start. -/
def silentInit : Main .ipv4 :=
  mainInit 0 [] ⟨fun _ => 0, UInt8.ofNat⟩ []

/-- Its token. -/
def firstToken : Bytes :=
  [0, 1, 2, 3, 4, 5, 6, 7]

/-! ## There is always a token -/

section Available

variable {v : Build} {conf : Conf} {s s' : Main v}

/-- If the event creates a token, `tkn_create` finds an unused id for it. -/
def CreatesUnused (s : Main v) : Event v → Prop
  | .cron now _ =>
      nbhdIsEmpty s.nbhd = false → s.p2p.timeToken < now →
        hashExists s.token.tokens.hash (tknCreate s.token s.random).1 = false
  | _ => True

/-- The tokens are found under their ids, and the newest one lives at least until
the next one is due. -/
structure TokensInv (s : Main v) : Prop where
  indexed : s.token.tokens.Indexed Tkn.id
  newest : ∃ r tkn, Newest s.token r tkn ∧ s.p2p.timeToken ≤ tkn.time

/-- A tick keeps the first part, whatever the clock says. -/
theorem indexed_p2pCron
    {now : Int} {resolved : List (List (Ip v))}
    (h : s.token.tokens.Indexed Tkn.id) (hunused : CreatesUnused s (.cron now resolved))
    (hrun : p2pCron conf now resolved s = .ok s') :
    s'.token.tokens.Indexed Tkn.id := by
  obtain ⟨-, ⟨-, htoken, -⟩ | ⟨hempty, token, hcreated, hexpired⟩⟩ := p2pCron_tokens hrun
  · rwa [htoken]
  have hindexed : token.tokens.Indexed Tkn.id := by
    rcases hcreated with ⟨-, rfl, -⟩ | ⟨hdue, rfl, -⟩
    · exact h
    · exact indexed_tknPut h (hunused hempty hdue)
  rcases hexpired with htoken | htoken
  · rwa [htoken]
  · rw [htoken]
    exact indexed_tknExpire hindexed now

theorem TokensInv.congr
    (h : TokensInv s) (htoken : s'.token = s.token)
    (htime : s'.p2p.timeToken = s.p2p.timeToken) :
    TokensInv s' where
  indexed := by
    rw [htoken]
    exact h.indexed
  newest := by
    rw [htoken, htime]
    exact h.newest

theorem tokensInv_mainInit
    {now : Int} (hnow : 0 ≤ now) (identity : List Identity) (rnd : Random) (names : Bytes) :
    TokensInv (mainInit now identity rnd names : Main v) where
  indexed := indexed_tknPut (Table.Indexed.init 10 (by decide)) rfl
  newest := by
    obtain ⟨tkn, hnewest, htime⟩ := newest_tknPut now tknInit rnd
    refine ⟨_, tkn, hnewest, ?_⟩
    rw [htime]
    change (0 : Int) ≤ now + 1800
    omega

/-- A tick: if the newest token could expire in this round, another one was
created before. -/
theorem TokensInv.p2pCron
    {now : Int} {resolved : List (List (Ip v))}
    (h : TokensInv s) (hunused : CreatesUnused s (.cron now resolved))
    (hrun : p2pCron conf now resolved s = .ok s') :
    TokensInv s' := by
  refine ⟨indexed_p2pCron h.indexed hunused hrun, ?_⟩
  obtain ⟨r, tkn, hnewest, hlater⟩ := h.newest
  obtain ⟨-, ⟨-, htoken, htime⟩ | ⟨hempty, token, hcreated, hexpired⟩⟩ := p2pCron_tokens hrun
  · exact ⟨r, tkn, htoken ▸ hnewest, htime ▸ hlater⟩
  have hnew : ∃ r tkn, Newest token r tkn ∧ s'.p2p.timeToken ≤ tkn.time ∧ now ≤ tkn.time := by
    rcases hcreated with ⟨hdue, rfl, htime⟩ | ⟨hdue, rfl, htime⟩
    · exact ⟨r, tkn, hnewest, by omega, by omega⟩
    · obtain ⟨tkn', hnewest', hlater'⟩ := newest_tknPut now s.token s.random
      exact ⟨_, tkn', hnewest', by omega, by omega⟩
  obtain ⟨r', tkn', hnewest', hlater', hlive⟩ := hnew
  rcases hexpired with htoken | htoken
  · exact ⟨r', tkn', htoken ▸ hnewest', hlater'⟩
  · exact ⟨r', tkn', htoken ▸ hnewest'.tknExpire hlive, hlater'⟩

/-- What an event other than a tick does to the tokens: nothing. -/
theorem daemonStep_tokens
    {e : Event v} (h : daemonStep conf s e = .ok s') :
    (∃ now resolved, e = .cron now resolved ∧
        p2pCron conf now resolved { s with sent := [] } = .ok s') ∨
      s'.token = s.token ∧ s'.p2p.timeToken = s.p2p.timeToken := by
  cases e with
  | dns datagram sa =>
      have hkeeps := (resolves_rParse h).steady.keepsTokens
      exact .inr ⟨hkeeps.token, hkeeps.timers.token⟩
  | p2p now behind datagram sa =>
      have hkeeps := keepsTokens_p2pParse h
      exact .inr ⟨hkeeps.token, hkeeps.timers.token⟩
  | cron now resolved =>
      exact .inl ⟨now, resolved, rfl, h⟩

theorem TokensInv.daemonStep
    {e : Event v} (h : TokensInv s) (hunused : CreatesUnused s e)
    (hrun : daemonStep conf s e = .ok s') :
    TokensInv s' := by
  rcases daemonStep_tokens hrun with ⟨now, resolved, rfl, hcron⟩ | ⟨htoken, htime⟩
  · exact TokensInv.p2pCron (s := { s with sent := [] }) ⟨h.indexed, h.newest⟩ hunused hcron
  · exact h.congr htoken htime

/-! ### No call of `tkn_read` without a token -/

theorem rSuccess_ne_noToken
    (lookup : Option Ref) (sa : Ip v) (msg : DnsMsg) (list : List (Pair v)) :
    s.rSuccess lookup sa msg list ≠ .error .noToken := by
  rw [Main.rSuccess]
  split <;> simp

theorem handleReply_ne_noToken
    (id : NodeId) (ti : Ref) (tid : Bytes) (sa : Ip v) (r : Reply) :
    handleReply conf s id ti tid sa r ≠ .error .noToken := by
  cases r with
  | getPeersValues token values =>
      rw [handleReply, p2pGetPeersGetValues]
      split
      · simp
      dsimp only
      split
      · simp
      · simp
      split
      · simp
      rw [answerInitiator]
      dsimp only
      split
      · simp
      split
      · simp
      · exact rSuccess_ne_noToken _ _ _ _
  | _ =>
      simp [handleReply]

theorem p2pReply_ne_noToken (packet : Ben) (sa : Ip v) :
    p2pReply conf s packet sa ≠ .error .noToken := by
  rw [p2pReply]
  split
  · simp
  dsimp only
  split
  · simp
  split
  · simp
  intro h
  have herror := map_eq_error h
  split at herror
  · cases herror
  · exact handleReply_ne_noToken _ _ _ _ _ herror

theorem p2pRequest_ne_noToken
    {token : Bytes} (htoken : tknRead s.token = some token) (behind : Bytes) (packet : Ben)
    (sa : Ip v) :
    p2pRequest conf behind s packet sa ≠ .error .noToken := by
  rw [p2pRequest]
  split
  · simp
  rename_i head _
  have hread : tknRead (s.nbhdPut conf head.id sa).token = some token := htoken
  dsimp only
  split
  · simp
  rename_i request _
  cases request with
  | getPeers infoHash =>
      simp only [handleRequest, p2pGetPeersGetRequest, sendGetPeersValues, sendGetPeersNodes, hread]
      split
      · simp
      split
      · simp
      · simp
  | _ =>
      simp [handleRequest]

theorem p2pParse_ne_noToken
    {token : Bytes} (htoken : tknRead s.token = some token) (behind : Bytes) (now : Int)
    (bencode : Raw) (sa : Ip v) :
    p2pParse conf behind now s bencode sa ≠ .error .noToken := by
  rw [p2pParse]
  dsimp only
  split
  · simp
  split
  · simp
  split
  · simp
  rw [p2pDecode]
  split
  · simp
  · split
    · split
      · exact p2pRequest_ne_noToken (by exact htoken) _ _ _
      split
      · exact p2pReply_ne_noToken _ _
      · simp
    · simp
  · simp

theorem tdbExpireLoop_ne_noToken (rounds : Nat) (item : Option Ref) :
    tdbExpireLoop conf rounds s item ≠ .error .noToken := by
  induction rounds generalizing s item with
  | zero =>
      cases item <;> simp [tdbExpireLoop]
  | succ rounds ih =>
      cases item with
      | none =>
          simp [tdbExpireLoop]
      | some ti =>
          exact ih _

theorem periodic_ne_noToken
    {due : P2p → Int} {setDue : P2p → Int → P2p} {again : Int → Random → Int × Random}
    {task : Main v → Except Fault (Main v)} (htask : task s ≠ .error .noToken) :
    periodic due setDue again task s ≠ .error .noToken := by
  rw [periodic]
  split
  · exact fun h => htask (map_eq_error h)
  · simp

theorem cronTasks_ne_noToken
    {task : Main v → Except Fault (Main v)} (htask : task ∈ cronTasks conf) :
    task s ≠ .error .noToken := by
  simp only [cronTasks, List.mem_cons, List.not_mem_nil, or_false] at htask
  rcases htask with rfl | rfl | rfl | rfl | rfl | rfl | rfl | rfl
  · exact periodic_ne_noToken (by simp [cronToken])
  · refine periodic_ne_noToken fun h => ?_
    exact tdbExpireLoop_ne_noToken _ _ (map_eq_error h)
  · refine periodic_ne_noToken ?_
    rw [cronSplit]
    split <;> simp
  all_goals
    exact periodic_ne_noToken (by simp)

theorem p2pCron_ne_noToken (now : Int) (resolved : List (List (Ip v))) :
    p2pCron conf now resolved s ≠ .error .noToken := by
  rw [p2pCron]
  dsimp only
  split
  · exact periodic_ne_noToken (by simp)
  · exact foldlM_ne_error fun task htask s => cronTasks_ne_noToken htask

theorem daemonStep_ne_noToken
    {token : Bytes} (htoken : tknRead s.token = some token) (e : Event v) :
    daemonStep conf s e ≠ .error .noToken := by
  cases e with
  | dns datagram sa =>
      rw [daemonStep, Main.rParse]
      dsimp only
      split
      · simp
      · rw [rLookup]
        dsimp only
        split
        · exact rSuccess_ne_noToken _ _ _ _
        split
        · exact rSuccess_ne_noToken _ _ _ _
        · simp
      · simp
  | p2p now behind datagram sa =>
      exact p2pParse_ne_noToken (by exact htoken) _ _ _ _
  | cron now resolved =>
      exact p2pCron_ne_noToken _ _

/-- In every run there is a token whenever `tkn_read` may be called, and the token
that it returns is accepted. -/
theorem token_available
    (conf : Conf) {now : Int} (hnow : 0 ≤ now) (identity : List Identity) (rnd : Random)
    (names : Bytes) (events : List (Event v))
    (hunused : Along CreatesUnused (daemonStep conf) (mainInit now identity rnd names) events)
    {s : Main v} (hrun : run (daemonStep conf) (mainInit now identity rnd names) events = .ok s) :
    (∃ token, tknRead s.token = some token ∧
        ∀ mem, Holds mem 0 token → tknValidate s.token mem = true) ∧
      ∀ e, daemonStep conf s e ≠ .error .noToken := by
  have hinv : TokensInv s :=
    hunused.invariant (fun _ _ _ hs hok hstep => hs.daemonStep hok hstep) hrun
      (tokensInv_mainInit hnow identity rnd names)
  obtain ⟨r, tkn, hnewest, -⟩ := hinv.newest
  exact ⟨⟨tkn.id, hnewest.tknRead, fun _ hmem =>
    tknValidate_of_get hinv.indexed hnewest.get hmem⟩, daemonStep_ne_noToken hnewest.tknRead⟩

/-- A tick after a long silence: another token is created before the first one is deleted. -/
theorem token_available_afterSilence :
    ∃ s, run (daemonStep onesConf) silentInit [queriesPeers 2000, .cron 2000 []] = .ok s ∧
      (∃ token, tknRead s.token = some token ∧
        ∀ mem, Holds mem 0 token → tknValidate s.token mem = true) ∧
      ∀ e, daemonStep onesConf s e ≠ .error .noToken := by
  have hunused : (daemonStep onesConf silentInit (queriesPeers 2000)).map (fun s =>
      hashExists s.token.tokens.hash (tknCreate s.token s.random).1) = .ok false := by
    decide +kernel
  have hok : (run (daemonStep onesConf) silentInit [queriesPeers 2000, .cron 2000 []]).map
      (fun _ => ()) = .ok () := by
    decide +kernel
  obtain ⟨s₁, hstep, hfalse⟩ := map_eq_ok hunused
  obtain ⟨s, hrun, -⟩ := map_eq_ok hok
  refine ⟨s, hrun, token_available onesConf (Int.le_refl 0) [] _ [] _ ?_ hrun⟩
  refine ⟨trivial, fun s' hs' => ?_⟩
  cases hstep.symm.trans hs'
  exact ⟨fun _ _ => hfalse, fun _ _ => trivial⟩

end Available

/-! ## An answer and the announce that follows it -/

section Outlives

variable {v : Build} {conf : Conf} {s s' s'' : Main v}

/-- The clock does not go back. -/
def Clockwise (s : Main v) : Event v → Prop
  | .dns _ _ => True
  | .p2p now _ _ _ => s.now ≤ now
  | .cron now _ => s.now ≤ now

/-- The datagram is a `get_peers` query. -/
def QueriesPeers (datagram : Bytes) : Prop :=
  ∃ packet, messageOf (received datagram) = some ('q'.toUInt8, packet) ∧ AsksForPeers packet

/-- The event is a `get_peers` query, and it was answered with a token. -/
def HandsOut (conf : Conf) (e : Event v) (s' : Main v) (token : Bytes) : Prop :=
  ∃ now behind datagram sa, e = .p2p now behind datagram sa ∧ QueriesPeers datagram ∧
    ∃ s₀ list tid, (sendGetPeersNodes conf s₀ sa list tid = .ok s' ∨
      sendGetPeersValues conf s₀ sa list tid = .ok s') ∧ tknRead s₀.token = some token

/-- In every later state of the run in which the clock has advanced by at most 60
seconds since the answer, the token is accepted. -/
def AcceptsLater (conf : Conf) (s₀ : Main v) (events : List (Event v)) : Prop :=
  ∀ pre e post s s' s'' token, pre ++ e :: post <+: events →
    run (daemonStep conf) s₀ pre = .ok s → daemonStep conf s e = .ok s' →
    run (daemonStep conf) s' post = .ok s'' → HandsOut conf e s' token →
    s''.now ≤ s'.now + 60 → ∀ mem, Holds mem 0 token → tknValidate s''.token mem = true

/-- If the event is a `get_peers` query, the newest token lives for at least
another minute. -/
def NewestLasts (s : Main v) : Event v → Prop
  | .p2p now _ datagram _ =>
      QueriesPeers datagram → ∀ r tkn, Newest s.token r tkn → now + 60 ≤ tkn.time
  | _ => True

theorem indexed_daemonStep
    {e : Event v} (h : s.token.tokens.Indexed Tkn.id) (hunused : CreatesUnused s e)
    (hrun : daemonStep conf s e = .ok s') :
    s'.token.tokens.Indexed Tkn.id := by
  rcases daemonStep_tokens hrun with ⟨now, resolved, rfl, hcron⟩ | ⟨htoken, -⟩
  · exact indexed_p2pCron (s := { s with sent := [] }) h hunused hcron
  · rwa [htoken]

theorem daemonStep_now {e : Event v} (hclock : Clockwise s e) (hrun : daemonStep conf s e = .ok s') :
    s.now ≤ s'.now := by
  cases e with
  | dns datagram sa =>
      exact le_of_eq (resolves_rParse hrun).steady.keepsTokens.timers.now.symm
  | p2p now behind datagram sa =>
      have hnow : s'.now = now := (keepsTokens_p2pParse hrun).timers.now
      rw [hnow]
      exact hclock
  | cron now resolved =>
      rw [(p2pCron_tokens hrun).1]
      exact hclock

theorem run_now
    {events : List (Event v)} (hclock : Along Clockwise (daemonStep conf) s events)
    (hrun : run (daemonStep conf) s events = .ok s') :
    s.now ≤ s'.now :=
  hclock.invariant (p := fun s' => s.now ≤ s'.now)
    (fun _ _ _ hs hok hstep => hs.trans (daemonStep_now hok hstep)) hrun le_rfl

/-- A token stays until the clock has passed its time. -/
theorem get_daemonStep
    {e : Event v} {r : Ref} {tkn : Tkn} (hget : s.token.tokens.heap.get r = some tkn)
    (hrun : daemonStep conf s e = .ok s') (hlive : s'.now ≤ tkn.time) :
    s'.token.tokens.heap.get r = some tkn := by
  rcases daemonStep_tokens hrun with ⟨now, resolved, rfl, hcron⟩ | ⟨htoken, -⟩
  · obtain ⟨hnow, ⟨-, htoken, -⟩ | ⟨-, token, hcreated, hexpired⟩⟩ := p2pCron_tokens hcron
    · rwa [htoken]
    have hcreated' : token.tokens.heap.get r = some tkn := by
      rcases hcreated with ⟨-, rfl, -⟩ | ⟨-, rfl, -⟩
      · exact hget
      · exact Heap.get_alloc_of_get _ hget
    rcases hexpired with htoken | htoken
    · rwa [htoken]
    · rw [htoken]
      exact get_tknExpire hcreated' (hnow ▸ hlive)
  · rwa [htoken]

theorem get_run
    {events : List (Event v)} {r : Ref} {tkn : Tkn}
    (hclock : Along Clockwise (daemonStep conf) s events)
    (hrun : run (daemonStep conf) s events = .ok s')
    (hget : s.token.tokens.heap.get r = some tkn) (hlive : s'.now ≤ tkn.time) :
    s'.token.tokens.heap.get r = some tkn := by
  induction events generalizing s with
  | nil =>
      cases hrun
      exact hget
  | cons e events ih =>
      obtain ⟨s₁, hstep, hrest⟩ := bind_eq_ok hrun
      have hlater := run_now (hclock.2 s₁ hstep) hrest
      exact ih (hclock.2 s₁ hstep) hrest (get_daemonStep hget hstep (hlater.trans hlive))

theorem sendGetPeersNodes_of_tknRead
    {token : Bytes} (hread : tknRead s.token = some token) (sa : Ip v) (list tid : Bytes) :
    sendGetPeersNodes conf s sa list tid =
      .ok (s.send (sendUdp sa (getPeersNodesDict v conf.nodeId list token tid))) := by
  rw [sendGetPeersNodes, hread]

/-- The token that is handed out is the newest one. -/
theorem HandsOut.newest
    {e : Event v} {token : Bytes} (h : HandsOut conf e s' token)
    (hrun : daemonStep conf s e = .ok s') :
    ∃ now behind datagram sa r tkn, e = .p2p now behind datagram sa ∧ QueriesPeers datagram ∧
      s'.now = now ∧ s'.token = s.token ∧ Newest s.token r tkn ∧ tkn.id = token := by
  obtain ⟨now, behind, datagram, sa, rfl, hquery, s₀, list, tid, hsend, hread⟩ := h
  have hkeeps := keepsTokens_p2pParse hrun
  have hsame : s'.token = s₀.token := by
    rcases hsend with hsend | hsend
    · cases (sendGetPeersNodes_of_tknRead hread sa list tid).symm.trans hsend
      rfl
    · rw [sendGetPeersValues, hread] at hsend
      cases hsend
      rfl
  have htoken : s.token = s₀.token := hkeeps.token.symm.trans hsame
  rw [← htoken, tknRead] at hread
  obtain ⟨tkn, htkn, hid⟩ := Option.map_eq_some_iff.mp hread
  obtain ⟨r, hlast, hget⟩ := Option.bind_eq_some_iff.mp htkn
  exact ⟨now, behind, datagram, sa, r, tkn, rfl, hquery, hkeeps.timers.now, hkeeps.token,
    ⟨hlast, hget⟩, hid⟩

/-- In every run with a clock that does not go back, an announce within a minute of
the answer finds its token accepted, if the tokens have different ids and each
was handed out with a minute or more to live. -/
theorem token_outlives_answer
    (conf : Conf) (now : Int) (identity : List Identity) (rnd : Random) (names : Bytes)
    (events : List (Event v))
    (hclock : Along Clockwise (daemonStep conf) (mainInit now identity rnd names) events)
    (hlasts : Along (fun s e => CreatesUnused s e ∧ NewestLasts s e) (daemonStep conf)
      (mainInit now identity rnd names) events) :
    AcceptsLater conf (mainInit now identity rnd names) events := by
  rintro pre e post s s' s'' token ⟨rest, rfl⟩ hpre hstep hpost hout hnow mem hmem
  have hindexed : s''.token.tokens.Indexed Tkn.id := by
    have hrun : run (daemonStep conf) (mainInit now identity rnd names) (pre ++ e :: post) =
        .ok s'' := by
      rw [run_append, hpre]
      change (daemonStep conf s e >>= fun s' => run (daemonStep conf) s' post) = .ok s''
      rw [hstep]
      exact hpost
    refine hlasts.left.invariant (p := fun s : Main v => s.token.tokens.Indexed Tkn.id)
      (fun _ _ _ hs hok hstep => indexed_daemonStep hs hok.1 hstep) hrun ?_
    exact indexed_tknPut (Table.Indexed.init 10 (by decide)) rfl
  have hclock' := hclock.left.right hpre
  have hlasts' := (hlasts.left.right hpre).1.2
  obtain ⟨t, behind, datagram, sa, r, tkn, rfl, hquery, ht, htoken, hnewest, rfl⟩ :=
    hout.newest hstep
  have htime : t + 60 ≤ tkn.time := hlasts' hquery r tkn hnewest
  have hget : s'.token.tokens.heap.get r = some tkn := by
    rw [htoken]
    exact hnewest.get
  exact tknValidate_of_get hindexed
    (get_run (hclock'.2 s' hstep) hpost hget (by omega)) hmem

/-- A query reaches its handler. -/
theorem daemonStep_query
    {me : NodeId} (hme : me ≠ conf.nodeId) (q : Query) {sa : Ip v}
    (hsize : (benEncRec (q.dict me)).length ≤ udpBuf) (hlocal : ipIsLinklocal sa = false)
    (hnonempty : 0 < (benEncRec (q.dict me)).length)
    (s : Main v) (now : Int) (behind : Bytes) :
    daemonStep conf s (.p2p now behind (benEncRec (q.dict me)) sa) =
      if q.admitted (tknAccepts s.token behind) then
        handleRequest conf
          (({ s with sent := [], p2p := { s.p2p with timeNow := now } } : Main v).nbhdPut conf me sa)
          me q.tid.bytes sa q.request
      else
        .ok (({ s with sent := [], p2p := { s.p2p with timeNow := now } } : Main v).nbhdPut
          conf me sa) := by
  obtain ⟨-, hvalid, -⟩ := benDec_benEnc (q.bounded_dict me) []
  rw [daemonStep]
  dsimp only
  rw [List.take_of_length_le hsize, p2pParse]
  dsimp only
  rw [if_neg (by omega), hlocal, if_neg Bool.false_ne_true, hvalid]
  exact q.p2pDecode_eq hme

theorem messageOf_query (q : Query) (me : NodeId) :
    messageOf ⟨buffer (benEncRec (q.dict me)) [], (benEncRec (q.dict me)).length⟩ =
      some ('q'.toUInt8, q.dict me) := by
  obtain ⟨-, -, hdec⟩ := benDec_benEnc (q.bounded_dict me) []
  have hy : benStrS (benDictSearchStr (some (q.dict me)) "y") = some ['q'.toUInt8] := by
    rw [Query.dict_eq, search_queryDict_y]
    rfl
  rw [messageOf, hdec]
  rw [Query.dict_eq, queryDict] at hy ⊢
  simp only [hy]

end Outlives

/-! ### The answer to the first query -/

theorem peersQuery_size :
    0 < (benEncRec (peersQuery.dict .zero)).length ∧
      (benEncRec (peersQuery.dict .zero)).length ≤ udpBuf := by
  decide +kernel

theorem peersQuery_query : QueriesPeers (benEncRec (peersQuery.dict .zero)) := by
  refine ⟨peersQuery.dict .zero, ?_, (asksForPeers_queryDict_iff _ _ _).mpr rfl⟩
  rw [received, List.take_of_length_le peersQuery_size.2]
  exact messageOf_query peersQuery .zero

/-- It is answered with the nodes, of which the sender is the first. -/
theorem queriesPeers_handsOut (now : Int) :
    ∃ s', daemonStep onesConf silentInit (queriesPeers now) = .ok s' ∧
      HandsOut onesConf (queriesPeers now) s' firstToken := by
  have hvalues : (valCompactList silentInit.value .zero).length = 0 := by decide +kernel
  have hnodes : 0 < (bcktCompactList
      (silentInit.nbhdPut onesConf .zero ⟨[10, 0, 0, 9], (26, 225), rfl⟩).nbhd.heap
      (silentInit.nbhdPut onesConf .zero ⟨[10, 0, 0, 9], (26, 225), rfl⟩).nbhd.bucket
      .zero).length := by decide +kernel
  have hread : tknRead silentInit.token = some firstToken := by decide +kernel
  have hzero : NodeId.zero ≠ onesConf.nodeId := by decide
  have hstep := daemonStep_query (v := .ipv4) hzero peersQuery peersQuery_size.2
    (show ipIsLinklocal (⟨[10, 0, 0, 9], (26, 225), rfl⟩ : Ip .ipv4) = false from rfl)
    peersQuery_size.1 silentInit now []
  rw [if_pos (show peersQuery.admitted _ = true from rfl)] at hstep
  have hrequest : peersQuery.request = .getPeers .zero := rfl
  rw [hrequest, handleRequest, p2pGetPeersGetRequest] at hstep
  dsimp only at hstep
  rw [if_neg (by exact Nat.not_lt.mpr hvalues.le), if_pos (by exact hnodes)] at hstep
  have hsend := hstep.trans (sendGetPeersNodes_of_tknRead (by exact hread) _ _ _)
  exact ⟨_, hsend, now, [], _, _, rfl, peersQuery_query, _, _, _,
    .inl (hstep.symm.trans hsend), hread⟩

/-- A tick behind the answer keeps the token while it has not expired. -/
theorem token_outlives_answer_soon :
    ∃ s', daemonStep onesConf silentInit (queriesPeers 10) = .ok s' ∧
      HandsOut onesConf (queriesPeers 10) s' firstToken ∧
      AcceptsLater onesConf silentInit [queriesPeers 10, .cron 20 []] := by
  obtain ⟨s', hstep, hout⟩ := queriesPeers_handsOut 10
  have hfacts : (daemonStep onesConf silentInit (queriesPeers 10)).map (fun s =>
      (s.now, hashExists s.token.tokens.hash (tknCreate s.token s.random).1)) =
        .ok (10, false) := by
    decide +kernel
  have hfirst : (silentInit.token.tokens.list.getLast?.bind silentInit.token.tokens.heap.get).map
      Tkn.time = some 1800 := by
    decide +kernel
  obtain ⟨s₁, hstep₁, heq⟩ := map_eq_ok hfacts
  cases hstep.symm.trans hstep₁
  obtain ⟨hnow, hfalse⟩ := Prod.mk.inj heq
  refine ⟨s', hstep, hout, token_outlives_answer onesConf 0 [] _ [] _ ?_ ?_⟩
  · refine ⟨(by decide : (0 : Int) ≤ 10), fun s₂ hs₂ => ?_⟩
    cases hstep.symm.trans hs₂
    refine ⟨?_, fun _ _ => trivial⟩
    change s'.now ≤ 20
    omega
  · refine ⟨⟨trivial, fun _ r tkn hnewest => ?_⟩, fun s₂ hs₂ => ?_⟩
    · have htkn := hfirst
      rw [show silentInit.token.tokens.list.getLast? = some r from hnewest.last,
        Option.bind_some, show silentInit.token.tokens.heap.get r = some tkn from hnewest.get,
        Option.map_some, Option.some.injEq] at htkn
      rw [htkn]
      decide
    · cases hstep.symm.trans hs₂
      exact ⟨⟨fun _ _ => hfalse, trivial⟩, fun _ _ => trivial⟩

/-- A node that knew nobody for more than half an hour: the first query is answered with
the token of the start, and the tick behind the same packet deletes it. -/
theorem token_outlives_answer_fails :
    ¬ ∀ (conf : Conf) (now : Int) (identity : List Identity) (rnd : Random) (names : Bytes)
      (events : List (Event .ipv4)),
      Along Clockwise (daemonStep conf) (mainInit now identity rnd names) events →
        AcceptsLater conf (mainInit now identity rnd names) events := by
  intro h
  obtain ⟨s', hstep, hout⟩ := queriesPeers_handsOut 2000
  have hfirst : (daemonStep onesConf silentInit (queriesPeers 2000)).map Main.now = .ok 2000 := by
    decide +kernel
  have hlast : (run (daemonStep onesConf) silentInit [queriesPeers 2000, .cron 2000 []]).map
      (fun s => (s.now, tknValidate s.token (buffer firstToken []))) = .ok (2000, false) := by
    decide +kernel
  obtain ⟨s₁, hstep₁, hnow⟩ := map_eq_ok hfirst
  cases hstep.symm.trans hstep₁
  obtain ⟨s'', hrun, heq⟩ := map_eq_ok hlast
  obtain ⟨hnow', hrejected⟩ := Prod.mk.inj heq
  obtain ⟨s₂, hstep₂, hpost⟩ := bind_eq_ok hrun
  cases hstep.symm.trans hstep₂
  have haccepts := h onesConf 0 [] ⟨fun _ => 0, UInt8.ofNat⟩ []
    [queriesPeers 2000, .cron 2000 []]
    ⟨(by decide : (0 : Int) ≤ 2000), fun s₂ hs₂ => by
      cases hstep.symm.trans hs₂
      exact ⟨le_of_eq hnow, fun _ _ => trivial⟩⟩
  have haccepted := haccepts [] (queriesPeers 2000) [.cron 2000 []] silentInit s' s'' firstToken
    List.prefix_rfl rfl hstep hpost hout (by omega) _ (holds_buffer_self firstToken [])
  exact Bool.false_ne_true (hrejected.symm.trans haccepted)

end Torrentkino
