import Torrentkino.P2p.Act

/-!
# What leaves waiting lookups alone

A lookup waits if it has to answer a DNS query and has not done so yet.  Most
of what the daemon does neither starts such a lookup nor touches the query of
one, leaves the name buffer as it is and sends no response of a lookup.
`Quiet` says that of two states, and `SilentActs.quiet` that all silent acts are
of this kind.
-/

namespace Torrentkino

open Memory Simulation

/-- The lookup still has to answer the query that started it. -/
def Lookup.Waits {v : Build} (l : Lookup v) : Prop :=
  l.sendResponseToInitiator = true ∧ l.numberOfDnsResponses = 0

/-- The second lookup waits only if the first one does, and for the same
query. -/
structure SameQuery {v : Build} (l l' : Lookup v) : Prop where
  waits : l'.Waits → l.Waits
  cAddr : l'.cAddr = l.cAddr
  msg : l'.msg = l.msg

/-- All that happened between two states leaves waiting lookups alone. -/
structure Quiet {v : Build} (s s' : Main v) : Prop where
  names : s'.names = s.names
  lookups : ∀ l lookup', s'.transaction.lookups.get l = some lookup' → lookup'.Waits →
    ∃ lookup, s.transaction.lookups.get l = some lookup ∧ SameQuery lookup lookup'
  sent : ∀ d l, Sent.dns d (some l) ∈ s'.sent → Sent.dns d (some l) ∈ s.sent

section Quiet

variable {v : Build} {s s' s'' : Main v}

theorem SameQuery.refl (l : Lookup v) : SameQuery l l :=
  ⟨id, rfl, rfl⟩

theorem SameQuery.trans
    {l l' l'' : Lookup v} (h : SameQuery l l') (h' : SameQuery l' l'') :
    SameQuery l l'' :=
  ⟨h.waits ∘ h'.waits, h'.cAddr.trans h.cAddr, h'.msg.trans h.msg⟩

/-- Lookups that wait after two steps were there before both of them. -/
theorem SameQuery.lookups_trans
    (h : ∀ l lookup', s'.transaction.lookups.get l = some lookup' → lookup'.Waits →
      ∃ lookup, s.transaction.lookups.get l = some lookup ∧ SameQuery lookup lookup')
    (h' : ∀ l lookup', s''.transaction.lookups.get l = some lookup' → lookup'.Waits →
      ∃ lookup, s'.transaction.lookups.get l = some lookup ∧ SameQuery lookup lookup') :
    ∀ l lookup', s''.transaction.lookups.get l = some lookup' → lookup'.Waits →
      ∃ lookup, s.transaction.lookups.get l = some lookup ∧ SameQuery lookup lookup' := by
  intro l lookup'' hget hwaits
  obtain ⟨lookup', hget', hsame'⟩ := h' l lookup'' hget hwaits
  obtain ⟨lookup, hget, hsame⟩ := h l lookup' hget' (hsame'.waits hwaits)
  exact ⟨lookup, hget, hsame.trans hsame'⟩

namespace Quiet

/-- The lookups, the name buffer and the output are the same. -/
theorem of_eq
    (hnames : s'.names = s.names)
    (hlookups : s'.transaction.lookups = s.transaction.lookups)
    (hsent : s'.sent = s.sent) :
    Quiet s s' where
  names := hnames
  lookups := by
    intro l lookup' hget _
    rw [hlookups] at hget
    exact ⟨lookup', hget, .refl _⟩
  sent := by
    intro d l hd
    rwa [hsent] at hd

theorem refl (s : Main v) : Quiet s s :=
  of_eq rfl rfl rfl

theorem trans (h : Quiet s s') (h' : Quiet s' s'') : Quiet s s'' where
  names := h'.names.trans h.names
  lookups := SameQuery.lookups_trans h.lookups h'.lookups
  sent := by
    intro d l hd
    exact h.sent d l (h'.sent d l hd)

/-- A loop of quiet rounds. -/
theorem foldl
    {α : Type} {f : Main v → α → Main v}
    (hf : ∀ s a, Quiet s (f s a)) (l : List α) (s : Main v) :
    Quiet s (l.foldl f s) := by
  induction l generalizing s with
  | nil =>
      exact refl s
  | cons a l ih =>
      exact (hf s a).trans (ih (f s a))

end Quiet

/-! ## Elementary steps -/

theorem quiet_send (s : Main v) (d : Option (Datagram v)) : Quiet s (s.send d) where
  names := rfl
  lookups := fun _ lookup' hget _ => ⟨lookup', hget, .refl _⟩
  sent := by
    intro d' l hd
    cases d with
    | none =>
        simpa [Main.send] using hd
    | some d =>
        simpa [Main.send] using hd

theorem quiet_nbhdPut (conf : Conf) (s : Main v) (id : NodeId) (sa : Ip v) :
    Quiet s (s.nbhdPut conf id sa) :=
  .of_eq rfl rfl rfl

theorem quiet_tdbPut (s : Main v) (type : TidType) : Quiet s (s.tdbPut type).2 :=
  .of_eq rfl rfl rfl

/-- A lookup is changed, but not its query. -/
theorem quiet_modifyLookup
    {l : Ref} {f : Lookup v → Lookup v}
    (hf : ∀ lookup, s.transaction.lookups.get l = some lookup → SameQuery lookup (f lookup)) :
    Quiet s (s.modifyLookup l f) where
  names := rfl
  lookups := by
    intro q lookup' hget _
    change (s.transaction.lookups.modify l f).get q = some lookup' at hget
    rcases eq_or_ne q l with rfl | hq
    · rw [Heap.get_modify_self] at hget
      obtain ⟨lookup, hlookup, rfl⟩ := Option.map_eq_some_iff.mp hget
      exact ⟨lookup, hlookup, hf lookup hlookup⟩
    · rw [Heap.get_modify_of_ne _ _ hq] at hget
      exact ⟨lookup', hget, .refl _⟩
  sent := fun _ _ hd => hd

theorem sameQuery_ldbUpdate (l : Lookup v) (id : NodeId) (token : Bytes) (sa : Ip v) :
    SameQuery l (ldbUpdate l id token sa) := by
  rw [ldbUpdate]
  split <;> exact ⟨fun h => h, rfl, rfl⟩

theorem sameQuery_ldbPut (l : Lookup v) (id : NodeId) (sa : Ip v) :
    SameQuery l (ldbPut l id sa).2 := by
  rw [ldbPut]
  split <;> exact ⟨fun h => h, rfl, rfl⟩

theorem quiet_tdbDel (s : Main v) (ti : Ref) :
    Quiet s { s with transaction := tdbDel s.transaction ti } where
  names := rfl
  lookups := fun _ lookup' hget _ => ⟨lookup', get_of_get_tdbDel hget, .refl _⟩
  sent := fun _ _ hd => hd

/-- A new lookup that no query has started. -/
theorem quiet_tdbLinkLdb (s : Main v) (ti : Ref) (target : NodeId) :
    Quiet s { s with transaction := tdbLinkLdb s.transaction ti (ldbInit target none) } where
  names := rfl
  lookups := by
    intro l lookup' hget hwaits
    change (s.transaction.lookups.alloc (ldbInit target none)).get l = some lookup' at hget
    rcases eq_or_ne l s.transaction.lookups.fresh with rfl | hl
    · rw [Heap.get_alloc_self] at hget
      cases hget
      cases hwaits.1
    · rw [Heap.get_alloc_of_ne _ _ hl] at hget
      exact ⟨lookup', hget, .refl _⟩
  sent := fun _ _ hd => hd

/-! ## Acts -/

theorem quiet_getNodesQuery
    (conf : Conf) (l : Ref) (tid : Bytes) (s : Main v) (node : NodeId × Ip v) :
    Quiet s (getNodesQuery conf l tid s node) := by
  rw [getNodesQuery]
  split
  · exact .refl _
  split
  · exact .refl _
  have hput := quiet_nbhdPut conf s node.1 node.2
  dsimp only
  split
  · exact hput
  · rename_i lookup hlookup
    split
    · exact hput
    have hmodify := quiet_modifyLookup (s := s.nbhdPut conf node.1 node.2) (l := l)
      (f := fun _ => (ldbPut lookup node.1 node.2).2) (by
        intro lookup' hlookup'
        cases hlookup.symm.trans hlookup'
        exact sameQuery_ldbPut _ _ _)
    split
    · exact hput.trans hmodify
    · exact (hput.trans hmodify).trans (quiet_send _ _)

theorem quiet_p2pGetPeersGetNodes
    (conf : Conf) (s : Main v) (id : NodeId) (ti : Ref) (tid token nodes : Bytes) (sa : Ip v) :
    Quiet s (p2pGetPeersGetNodes conf s id ti tid token nodes sa) := by
  rw [p2pGetPeersGetNodes]
  split
  · exact .refl _
  · exact (quiet_modifyLookup fun lookup _ => sameQuery_ldbUpdate lookup id token sa).trans
      (Quiet.foldl (quiet_getNodesQuery conf _ tid) _ _)

theorem quiet_lookupQuery
    (conf : Conf) (l : Ref) (tid : Bytes) (target : NodeId) (s : Main v)
    (node : NodeId × Ip v) :
    Quiet s (lookupQuery conf l tid target s node) :=
  (quiet_modifyLookup fun lookup _ => sameQuery_ldbPut lookup node.1 node.2).trans
    (quiet_send _ _)

theorem quiet_p2pCronLookup (conf : Conf) (s : Main v) (target : NodeId) (type : TidType) :
    Quiet s (p2pCronLookup conf s target type) :=
  ((quiet_tdbPut s type).trans (quiet_tdbLinkLdb _ _ target)).trans
    (Quiet.foldl (quiet_lookupQuery conf _ _ target) _ _)

/-- One lemma for all silent acts. -/
theorem quiet_actStep
    {conf : Conf} {a : Act v} (hsilent : a.Silent) (h : actStep conf s a = .ok s') :
    Quiet s s' := by
  cases a with
  | event | names names | respond d | values id ti token values sa =>
      cases hsilent
  | store m =>
      cases h
      exact .of_eq rfl rfl rfl
  | nbhd op =>
      rw [actStep] at h
      split at h
      · cases h
      · cases h
        exact .of_eq rfl rfl rfl
  | found r time =>
      cases h
      exact .of_eq rfl rfl rfl
  | tdbPut type other =>
      cases h
      exact .of_eq rfl rfl rfl
  | tdbDel ti =>
      cases h
      exact quiet_tdbDel s ti
  | lookup target type owner query =>
      cases hsilent
      cases h
      exact quiet_p2pCronLookup conf s target type
  | nodes id ti tid token nodes sa =>
      cases h
      exact quiet_p2pGetPeersGetNodes conf s id ti tid token nodes sa
  | send sa dict other =>
      cases h
      exact quiet_send s _

theorem SilentActs.quiet {conf : Conf} (h : SilentActs conf s s') : Quiet s s' :=
  Reaches.lift Quiet.refl Quiet.trans quiet_actStep h

end Quiet
end Torrentkino
