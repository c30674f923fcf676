import Mathlib.Data.List.Basic

/-!
# Runs of a fallible machine against an abstract one

A concrete machine whose steps may fault, an abstract machine whose steps do
not, and a relation between their states.  Operations come with a side
condition that is judged on the abstract state (`pre`: the operation makes
sense here) and one that is judged on the concrete state (`cond`: the step is
not one of those that go wrong).

`run_invariant` is the induction over runs for properties that every step
keeps, `run_allSteps` the one for properties of the steps, and `run_always` the one
for both.  `Reaches` says that one state comes from another by operations of a
kind, `Leads` that each of them is in order where it is performed, and the two
`lift` are the inductions for relations between the two states.  `Simulates` is
what has to be shown of a single step.  `run_related_iff` turns it into a statement about whole
runs: a run of admissible operations ends related to the abstract run exactly
when each of its steps met `cond`.
-/

namespace Torrentkino
namespace Simulation

variable {σ τ ι ε : Type}

/-- Run a fallible step function over a sequence of operations. -/
def run (step : σ → ι → Except ε σ) : σ → List ι → Except ε σ
  | s, [] => .ok s
  | s, op :: ops => step s op >>= fun s' => run step s' ops

/-- Run a total step function over a sequence of operations. -/
def runAbs (step : τ → ι → τ) : τ → List ι → τ
  | t, [] => t
  | t, op :: ops => runAbs step (step t op) ops

/-- Every operation satisfies `pre` in the abstract state it is performed in. -/
def Admissible (pre : τ → ι → Prop) (step : τ → ι → τ) : τ → List ι → Prop
  | _, [] => True
  | t, op :: ops => pre t op ∧ Admissible pre step (step t op) ops

/-- Every operation satisfies `cond` in the concrete state it is performed in. -/
def Along (cond : σ → ι → Prop) (step : σ → ι → Except ε σ) : σ → List ι → Prop
  | _, [] => True
  | s, op :: ops =>
      cond s op ∧ ∀ s', step s op = .ok s' → Along cond step s' ops

instance decidableAlong
    {cond : σ → ι → Prop} [∀ s op, Decidable (cond s op)] (step : σ → ι → Except ε σ) :
    (s : σ) → (ops : List ι) → Decidable (Along cond step s ops)
  | _, [] => .isTrue trivial
  | s, op :: ops =>
      match hop : step s op with
      | .error _ =>
          decidable_of_iff (cond s op)
            ⟨fun h => ⟨h, fun _ hs' => nomatch hop.symm.trans hs'⟩, fun h => h.1⟩
      | .ok s₁ =>
          haveI : Decidable (Along cond step s₁ ops) := decidableAlong step s₁ ops
          decidable_of_iff (cond s op ∧ Along cond step s₁ ops)
            ⟨fun h => ⟨h.1, fun _ hs' => Except.ok.inj (hop.symm.trans hs') ▸ h.2⟩,
              fun h => ⟨h.1, h.2 s₁ hop⟩⟩

/-- Every step that the run takes satisfies `post`. -/
def AllSteps (post : σ → ι → σ → Prop) (step : σ → ι → Except ε σ) : σ → List ι → Prop
  | _, [] => True
  | s, op :: ops =>
      ∀ s', step s op = .ok s' → post s op s' ∧ AllSteps post step s' ops

/-- The step lemma: steps that meet the conditions stay related, the others
fault. -/
structure Simulates
    (related : σ → τ → Prop)
    (pre : τ → ι → Prop)
    (cond : σ → ι → Prop)
    (step : σ → ι → Except ε σ)
    (stepAbs : τ → ι → τ) : Prop where
  /-- A step under the condition returns and preserves the relation. -/
  step_ok : ∀ {s t op}, related s t → pre t op → cond s op →
    ∃ s', step s op = .ok s' ∧ related s' (stepAbs t op)
  /-- A step outside the condition does not return. -/
  step_fault : ∀ {s t op}, related s t → pre t op → ¬ cond s op →
    ∃ e, step s op = .error e

/-- Where a mapped result comes from. -/
theorem map_eq_ok {x : Except ε σ} {f : σ → τ} {t : τ} (h : x.map f = .ok t) :
    ∃ s, x = .ok s ∧ f s = t := by
  cases x with
  | error e =>
      cases h
  | ok s =>
      cases h
      exact ⟨s, rfl, rfl⟩

/-- A mapped computation fails with the computation. -/
theorem map_eq_error {x : Except ε σ} {f : σ → τ} {e : ε} (h : x.map f = .error e) :
    x = .error e := by
  cases x with
  | error e' =>
      cases h
      rfl
  | ok s =>
      cases h

/-- What comes before, when the rest of a computation succeeds. -/
theorem bind_eq_ok {x : Except ε σ} {f : σ → Except ε τ} {t : τ} (h : x >>= f = .ok t) :
    ∃ s, x = .ok s ∧ f s = .ok t := by
  cases x with
  | error e =>
      cases h
  | ok s =>
      exact ⟨s, rfl, h⟩

/-- The first step of a run, and the rest of it. -/
theorem run_cons_eq_ok
    {step : σ → ι → Except ε σ} {op : ι} {ops : List ι} {s s' : σ}
    (h : run step s (op :: ops) = .ok s') :
    ∃ s₁, step s op = .ok s₁ ∧ run step s₁ ops = .ok s' :=
  bind_eq_ok h

/-- The rule for invariants: what holds at the start and is kept by every step,
none of which faults, holds after every run. -/
theorem run_invariant
    {step : σ → ι → Except ε σ} {inv : σ → Prop}
    (hstep : ∀ s op, inv s → ∃ s', step s op = .ok s' ∧ inv s')
    (ops : List ι) {s : σ} (hs : inv s) :
    ∃ s', run step s ops = .ok s' ∧ inv s' := by
  induction ops generalizing s with
  | nil =>
      exact ⟨s, rfl, hs⟩
  | cons op ops ih =>
      obtain ⟨s₁, hop, hs₁⟩ := hstep s op hs
      obtain ⟨s', hrun, hs'⟩ := ih hs₁
      refine ⟨s', ?_, hs'⟩
      rw [run, hop]
      exact hrun

/-- The rule for steps: in a run whose steps meet `cond`, every step satisfies
what follows for one step from the invariant and the condition. -/
theorem run_allSteps
    {step : σ → ι → Except ε σ} {inv : σ → Prop} {cond : σ → ι → Prop}
    {post : σ → ι → σ → Prop}
    (hstep : ∀ s op s', inv s → cond s op → step s op = .ok s' → post s op s' ∧ inv s')
    (ops : List ι) {s : σ} (hs : inv s) (hcond : Along cond step s ops) :
    AllSteps post step s ops := by
  induction ops generalizing s with
  | nil =>
      trivial
  | cons op ops ih =>
      intro s' hop
      obtain ⟨hpost, hs'⟩ := hstep s op s' hs hcond.1 hop
      exact ⟨hpost, ih hs' (hcond.2 s' hop)⟩

/-- The rule for both: an invariant holds at the end of every run, and every step
satisfies what follows from it. -/
theorem run_always
    {step : σ → ι → Except ε σ} {inv : σ → Prop} {post : σ → ι → σ → Prop}
    (hstep : ∀ s op s', inv s → step s op = .ok s' → post s op s' ∧ inv s')
    (ops : List ι) {s : σ} (hs : inv s) :
    AllSteps post step s ops ∧ ∀ s', run step s ops = .ok s' → inv s' := by
  induction ops generalizing s with
  | nil =>
      refine ⟨trivial, fun s' hrun => ?_⟩
      cases hrun
      exact hs
  | cons op ops ih =>
      constructor
      · intro s₁ hop
        obtain ⟨hpost, hs₁⟩ := hstep s op s₁ hs hop
        exact ⟨hpost, (ih hs₁).1⟩
      · intro s' hrun
        obtain ⟨s₁, hop, hrun⟩ := run_cons_eq_ok hrun
        exact (ih (hstep s op s₁ hs hop).2).2 s' hrun

/-- What every step of a run satisfies is satisfied by its last step. -/
theorem AllSteps.last
    {step : σ → ι → Except ε σ} {post : σ → ι → σ → Prop}
    {ops : List ι} {op : ι} {s s' : σ} (h : AllSteps post step s (ops ++ [op]))
    (hrun : run step s (ops ++ [op]) = .ok s') :
    ∃ s₁, post s₁ op s' := by
  induction ops generalizing s with
  | nil =>
      obtain ⟨s₁, hop, hrun⟩ := run_cons_eq_ok hrun
      cases hrun
      exact ⟨s, (h _ hop).1⟩
  | cons op₀ ops ih =>
      obtain ⟨s₁, hop, hrun⟩ := run_cons_eq_ok hrun
      exact ih (h s₁ hop).2 hrun

/-- A run can be cut anywhere. -/
theorem run_append (step : σ → ι → Except ε σ) (s : σ) (ops ops' : List ι) :
    run step s (ops ++ ops') = run step s ops >>= fun s' => run step s' ops' := by
  induction ops generalizing s with
  | nil =>
      rfl
  | cons op ops ih =>
      rw [List.cons_append, run, run]
      cases step s op with
      | error e =>
          rfl
      | ok s₁ =>
          exact ih s₁

/-! ## Loops -/

/-- A loop whose rounds all respect a reflexive and transitive relation. -/
theorem foldl_rel
    {α : Type} {r : σ → σ → Prop} {f : σ → α → σ} (hrefl : ∀ s, r s s)
    (htrans : ∀ {s s' s''}, r s s' → r s' s'' → r s s'')
    (hf : ∀ s a, r s (f s a)) (l : List α) (s : σ) :
    r s (l.foldl f s) := by
  induction l generalizing s with
  | nil =>
      exact hrefl s
  | cons a l ih =>
      exact htrans (hf s a) (ih (f s a))

/-- Tasks, one after the other, that respect it. -/
theorem foldlM_rel
    {r : σ → σ → Prop} {tasks : List (σ → Except ε σ)} {s s' : σ} (hrefl : ∀ s, r s s)
    (htrans : ∀ {s s' s''}, r s s' → r s' s'' → r s s'')
    (htasks : ∀ task ∈ tasks, ∀ {s s'}, task s = .ok s' → r s s')
    (h : tasks.foldlM (fun s task => task s) s = .ok s') :
    r s s' := by
  induction tasks generalizing s with
  | nil =>
      cases h
      exact hrefl _
  | cons task tasks ih =>
      rw [List.foldlM_cons] at h
      cases hrun : task s with
      | error e =>
          rw [hrun] at h
          cases h
      | ok s₁ =>
          rw [hrun] at h
          exact htrans (htasks task List.mem_cons_self hrun)
            (ih (fun t ht => htasks t (List.mem_cons_of_mem _ ht)) h)

/-- Tasks, one after the other, none of which fails with `e`. -/
theorem foldlM_ne_error
    {tasks : List (σ → Except ε σ)} {s : σ} {e : ε}
    (htasks : ∀ task ∈ tasks, ∀ s, task s ≠ .error e) :
    tasks.foldlM (fun s task => task s) s ≠ .error e := by
  induction tasks generalizing s with
  | nil =>
      exact fun h => by cases h
  | cons task tasks ih =>
      rw [List.foldlM_cons]
      cases hrun : task s with
      | error e' =>
          intro h
          cases h
          exact htasks task List.mem_cons_self s hrun
      | ok s₁ =>
          exact ih fun t ht => htasks t (List.mem_cons_of_mem _ ht)

/-! ## Reachability -/

theorem along_of_forall
    {step : σ → ι → Except ε σ} {kind : ι → Prop} {ops : List ι} (h : ∀ op ∈ ops, kind op) (s : σ) :
    Along (fun _ op => kind op) step s ops := by
  induction ops generalizing s with
  | nil =>
      trivial
  | cons op ops ih =>
      obtain ⟨hop, hops⟩ := List.forall_mem_cons.mp h
      exact ⟨hop, fun s' _ => ih hops s'⟩

/-- A relation that every step of a run respects. -/
theorem run_lift
    {step : σ → ι → Except ε σ} {ok : σ → ι → Prop} {r : σ → σ → Prop} (hrefl : ∀ s, r s s)
    (htrans : ∀ {s s' s''}, r s s' → r s' s'' → r s s'')
    (hstep : ∀ {s s' op}, ok s op → step s op = .ok s' → r s s')
    {ops : List ι} {s s' : σ} (hops : Along ok step s ops) (hrun : run step s ops = .ok s') :
    r s s' := by
  induction ops generalizing s with
  | nil =>
      cases hrun
      exact hrefl _
  | cons op ops ih =>
      obtain ⟨s₁, hop, hrun⟩ := run_cons_eq_ok hrun
      exact htrans (hstep hops.1 hop) (ih (hops.2 s₁ hop) hrun)

/-- Operations of a kind lead from one state to the other. -/
def Reaches (step : σ → ι → Except ε σ) (kind : ι → Prop) (s s' : σ) : Prop :=
  ∃ ops, (∀ op ∈ ops, kind op) ∧ run step s ops = .ok s'

section Reaches

variable {step : σ → ι → Except ε σ} {kind kind' : ι → Prop} {s s' s'' : σ}

namespace Reaches

theorem refl (s : σ) : Reaches step kind s s :=
  ⟨[], fun _ h => absurd h List.not_mem_nil, rfl⟩

theorem single (op : ι) (hkind : kind op) (hstep : step s op = .ok s') :
    Reaches step kind s s' := by
  refine ⟨[op], ?_, ?_⟩
  · intro op' hop'
    rwa [List.mem_singleton.mp hop']
  · rw [run, hstep]
    rfl

theorem trans (h : Reaches step kind s s') (h' : Reaches step kind s' s'') :
    Reaches step kind s s'' := by
  obtain ⟨ops, hops, hrun⟩ := h
  obtain ⟨ops', hops', hrun'⟩ := h'
  refine ⟨ops ++ ops', ?_, ?_⟩
  · intro op hop
    rcases List.mem_append.mp hop with hop | hop
    · exact hops op hop
    · exact hops' op hop
  · rw [run_append, hrun]
    exact hrun'

theorem mono (h : Reaches step kind s s') (hkind : ∀ op, kind op → kind' op) :
    Reaches step kind' s s' := by
  obtain ⟨ops, hops, hrun⟩ := h
  exact ⟨ops, fun op hop => hkind op (hops op hop), hrun⟩

/-- A loop whose rounds consist of such operations. -/
theorem foldl
    {α : Type} {f : σ → α → σ} (hf : ∀ s a, Reaches step kind s (f s a)) (l : List α) (s : σ) :
    Reaches step kind s (l.foldl f s) :=
  foldl_rel refl trans hf l s

/-- Tasks, one after the other, that consist of such operations. -/
theorem foldlM
    {tasks : List (σ → Except ε σ)}
    (htasks : ∀ task ∈ tasks, ∀ {s s'}, task s = .ok s' → Reaches step kind s s')
    (h : tasks.foldlM (fun s task => task s) s = .ok s') :
    Reaches step kind s s' :=
  foldlM_rel refl trans htasks h

/-- A relation that every single operation respects. -/
theorem lift
    {r : σ → σ → Prop} (hrefl : ∀ s, r s s)
    (htrans : ∀ {s s' s''}, r s s' → r s' s'' → r s s'')
    (hstep : ∀ {s s' op}, kind op → step s op = .ok s' → r s s')
    (h : Reaches step kind s s') :
    r s s' := by
  obtain ⟨ops, hops, hrun⟩ := h
  exact run_lift hrefl htrans hstep (along_of_forall hops s) hrun

end Reaches
end Reaches

/-- Operations that are all in order where they are performed lead from one state
to the other. -/
def Leads (step : σ → ι → Except ε σ) (ok : σ → ι → Prop) (s s' : σ) : Prop :=
  ∃ ops, Along ok step s ops ∧ run step s ops = .ok s'

section Leads

variable {step : σ → ι → Except ε σ} {ok ok' : σ → ι → Prop} {s s' s'' : σ}

theorem Along.append
    {ops ops' : List ι} (h : Along ok step s ops)
    (h' : ∀ s', run step s ops = .ok s' → Along ok step s' ops') :
    Along ok step s (ops ++ ops') := by
  induction ops generalizing s with
  | nil =>
      exact h' s rfl
  | cons op ops ih =>
      refine ⟨h.1, fun s₁ hop => ih (h.2 s₁ hop) fun s' hrun => h' s' ?_⟩
      rw [run, hop]
      exact hrun

theorem Along.left
    {ops ops' : List ι} (h : Along ok step s (ops ++ ops')) : Along ok step s ops := by
  induction ops generalizing s with
  | nil =>
      trivial
  | cons op ops ih =>
      exact ⟨h.1, fun s₁ hop => ih (h.2 s₁ hop)⟩

theorem Along.right
    {ops ops' : List ι} (h : Along ok step s (ops ++ ops')) (hrun : run step s ops = .ok s') :
    Along ok step s' ops' := by
  induction ops generalizing s with
  | nil =>
      cases hrun
      exact h
  | cons op ops ih =>
      obtain ⟨s₁, hop, hrest⟩ := bind_eq_ok hrun
      exact ih (h.2 s₁ hop) hrest

/-- What holds at the start and is kept by the steps that are in order holds at the
end. -/
theorem Along.invariant
    {p : σ → Prop} {ops : List ι}
    (hstep : ∀ s op s', p s → ok s op → step s op = .ok s' → p s')
    (h : Along ok step s ops) (hrun : run step s ops = .ok s') (hs : p s) :
    p s' := by
  induction ops generalizing s with
  | nil =>
      cases hrun
      exact hs
  | cons op ops ih =>
      obtain ⟨s₁, hop, hrest⟩ := bind_eq_ok hrun
      exact ih (h.2 s₁ hop) hrest (hstep s op s₁ hs h.1 hop)

theorem Along.mono
    {ops : List ι} (h : Along ok step s ops) (hok : ∀ s op, ok s op → ok' s op) :
    Along ok' step s ops := by
  induction ops generalizing s with
  | nil =>
      trivial
  | cons op ops ih =>
      exact ⟨hok s op h.1, fun s₁ hop => ih (h.2 s₁ hop)⟩

/-- What holds at the start and is kept by every step holds at the end. -/
theorem run_keeps
    {p : σ → Prop} (hstep : ∀ s op s', p s → step s op = .ok s' → p s')
    {ops : List ι} (hrun : run step s ops = .ok s') (hs : p s) :
    p s' := by
  have halways : ∀ s op s', p s → step s op = .ok s' → True ∧ p s' :=
    fun s op s' hs hop => ⟨trivial, hstep s op s' hs hop⟩
  exact (run_always halways ops hs).2 s' hrun

/-- A property that follows from what the steps in order keep, and that every other
step breaks, holds in all states of exactly the runs whose steps are in order. -/
theorem throughout_iff_along
    {inv kept p : σ → Prop}
    (hinv : ∀ s op s', inv s → step s op = .ok s' → inv s')
    (hkept : ∀ s op s', kept s → ok s op → step s op = .ok s' → kept s')
    (hp : ∀ s, kept s → p s)
    (hbreak : ∀ s op, inv s → ¬ ok s op → ∃ s', step s op = .ok s' ∧ ¬ p s')
    (ops : List ι) (hs : inv s) (hstart : kept s) :
    (∀ pre s', pre <+: ops → run step s pre = .ok s' → p s') ↔ Along ok step s ops := by
  constructor
  · clear hstart
    induction ops generalizing s with
    | nil =>
        exact fun _ => trivial
    | cons op ops ih =>
        intro h
        refine ⟨?_, fun s₁ hop => ih (hinv s op s₁ hs hop) fun pre s' hpre hrun => ?_⟩
        · by_contra hok
          obtain ⟨s₁, hop, hnot⟩ := hbreak s op hs hok
          refine hnot (h [op] s₁ ⟨ops, rfl⟩ ?_)
          rw [run, hop]
          rfl
        · refine h (op :: pre) s' (List.cons_prefix_cons.mpr ⟨rfl, hpre⟩) ?_
          rw [run, hop]
          exact hrun
  · rintro halong pre s' ⟨rest, rfl⟩ hrun
    exact hp s' (halong.left.invariant hkept hrun hstart)

namespace Leads

theorem refl (s : σ) : Leads step ok s s :=
  ⟨[], trivial, rfl⟩

theorem single (op : ι) (hok : ok s op) (hstep : step s op = .ok s') : Leads step ok s s' := by
  refine ⟨[op], ⟨hok, fun _ _ => trivial⟩, ?_⟩
  rw [run, hstep]
  rfl

theorem trans (h : Leads step ok s s') (h' : Leads step ok s' s'') : Leads step ok s s'' := by
  obtain ⟨ops, hops, hrun⟩ := h
  obtain ⟨ops', hops', hrun'⟩ := h'
  refine ⟨ops ++ ops', hops.append fun s₁ hrun₁ => ?_, ?_⟩
  · cases hrun.symm.trans hrun₁
    exact hops'
  · rw [run_append, hrun]
    exact hrun'

theorem foldl
    {α : Type} {f : σ → α → σ} (hf : ∀ s a, Leads step ok s (f s a)) (l : List α) (s : σ) :
    Leads step ok s (l.foldl f s) :=
  foldl_rel refl trans hf l s

theorem mono (h : Leads step ok s s') (hok : ∀ s op, ok s op → ok' s op) :
    Leads step ok' s s' := by
  obtain ⟨ops, hops, hrun⟩ := h
  exact ⟨ops, hops.mono hok, hrun⟩

/-- A relation that every operation respects where it is in order. -/
theorem lift
    {r : σ → σ → Prop} (hrefl : ∀ s, r s s)
    (htrans : ∀ {s s' s''}, r s s' → r s' s'' → r s s'')
    (hstep : ∀ {s s' op}, ok s op → step s op = .ok s' → r s s')
    (h : Leads step ok s s') :
    r s s' := by
  obtain ⟨ops, hops, hrun⟩ := h
  exact run_lift hrefl htrans hstep hops hrun

/-- Operations of a kind, whatever the states they are performed in. -/
theorem reaches {kind : ι → Prop} (h : Leads step ok s s') (hkind : ∀ s op, ok s op → kind op) :
    Reaches step kind s s' :=
  lift Reaches.refl Reaches.trans (fun hok hstep => .single _ (hkind _ _ hok) hstep) h

end Leads
end Leads

/-! ## Simulation -/

variable {related : σ → τ → Prop} {pre : τ → ι → Prop} {cond : σ → ι → Prop}
  {step : σ → ι → Except ε σ} {stepAbs : τ → ι → τ}

/-- Whole runs: exactly the runs whose steps all meet the condition end in a
state related to the abstract one. -/
theorem run_related_iff
    (hsim : Simulates related pre cond step stepAbs)
    (ops : List ι) {s : σ} {t : τ}
    (hrel : related s t)
    (hadm : Admissible pre stepAbs t ops) :
    (∃ s', run step s ops = .ok s' ∧ related s' (runAbs stepAbs t ops)) ↔
      Along cond step s ops := by
  induction ops generalizing s t with
  | nil =>
      exact ⟨fun _ => trivial, fun _ => ⟨s, rfl, hrel⟩⟩
  | cons op ops ih =>
      obtain ⟨hpre, hadm'⟩ := hadm
      by_cases hcond : cond s op
      · obtain ⟨s₁, hstep, hrel₁⟩ := hsim.step_ok hrel hpre hcond
        have hrun : run step s (op :: ops) = run step s₁ ops := by
          simp only [run, hstep]
          rfl
        rw [hrun, runAbs, ih hrel₁ hadm']
        constructor
        · intro h
          refine ⟨hcond, ?_⟩
          intro s₂ hs₂
          rw [hstep] at hs₂
          cases hs₂
          exact h
        · intro h
          exact h.2 s₁ hstep
      · obtain ⟨e, hfault⟩ := hsim.step_fault hrel hpre hcond
        constructor
        · rintro ⟨s', hrun, _⟩
          simp only [run, hfault] at hrun
          cases hrun
        · intro h
          exact absurd h.1 hcond

end Simulation
end Torrentkino
