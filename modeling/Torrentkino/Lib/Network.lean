import Mathlib.Data.List.Forall2
import Torrentkino.Lib.Simulation

/-!
# Networks of fallible nodes

Nodes with a state each, that react to inputs and send messages.  A network does
not promise much: it may lose a message, deliver it more than once, late, out of order,
or to a node that it was not meant for.  All of this follows from keeping everything
that was ever sent (`wire`) and delivering any of it at any time.

**Results.**
* `run_net_invariant`: what every reaction keeps, holds of all nodes and of all
  messages in every run.
* `run_net_related`: if the reactions of two kinds of nodes are related, so are the
  runs of their networks.
-/

namespace Torrentkino
namespace Network

open Simulation

variable {ι σ τ α β γ μ ν ε ε' : Type}

/-- The states of the nodes, and what they have sent so far. -/
structure Net (ι σ μ : Type) where
  nodes : ι → σ
  wire : List (ι × μ)

/-- What can happen: something that reaches a node from outside, or the message at a
place of the wire, which is delivered under the circumstances `c`. -/
inductive NetOp (ι α γ : Type) where
  | input (i : ι) (a : α)
  | deliver (i : ι) (place : Nat) (c : γ)

namespace NetOp

/-- The same operation with another kind of inputs from outside. -/
def map (f : α → β) : NetOp ι α γ → NetOp ι β γ
  | input i a => .input i (f a)
  | deliver i place c => .deliver i place c

end NetOp

section Step

variable [DecidableEq ι] (react : ι → σ → α → Except ε (σ × List μ)) (arrive : γ → ι × μ → α)

/-- A node reacts. -/
def Net.act (n : Net ι σ μ) (i : ι) (a : α) : Except ε (Net ι σ μ) :=
  (react i (n.nodes i) a).map fun r =>
    ⟨Function.update n.nodes i r.1, n.wire ++ r.2.map (Prod.mk i)⟩

/-- One operation; where nothing was sent, nothing arrives. -/
def netStep (n : Net ι σ μ) : NetOp ι α γ → Except ε (Net ι σ μ)
  | .input i a => n.act react i a
  | .deliver i place c =>
      match n.wire[place]? with
      | none => .ok n
      | some packet => n.act react i (arrive c packet)

end Step

/-! ## Invariants -/

section Invariant

variable [DecidableEq ι] {react : ι → σ → α → Except ε (σ × List μ)} {arrive : γ → ι × μ → α}

/-- Something holds of all nodes, and something of all messages. -/
structure Net.All (P : ι → σ → Prop) (Q : ι → μ → Prop) (n : Net ι σ μ) : Prop where
  nodes : ∀ i, P i (n.nodes i)
  wire : ∀ packet ∈ n.wire, Q packet.1 packet.2

variable {P : ι → σ → Prop} {Q : ι → μ → Prop} {A : ι → α → Prop}

/-- Reactions keep what holds of the nodes, and only send what holds of messages. -/
def Keeps (react : ι → σ → α → Except ε (σ × List μ)) (P : ι → σ → Prop) (Q : ι → μ → Prop)
    (A : ι → α → Prop) : Prop :=
  ∀ ⦃i s a r⦄, P i s → A i a → react i s a = .ok r → P i r.1 ∧ ∀ m ∈ r.2, Q i m

theorem Net.All.act
    {n n' : Net ι σ μ} {i : ι} {a : α} (hkeeps : Keeps react P Q A) (h : n.All P Q) (ha : A i a)
    (hact : n.act react i a = .ok n') : n'.All P Q := by
  obtain ⟨r, hreact, rfl⟩ := map_eq_ok hact
  obtain ⟨hstate, hsent⟩ := hkeeps (h.nodes i) ha hreact
  constructor
  · intro j
    by_cases hj : j = i
    · subst hj
      simp only [Function.update_self]
      exact hstate
    · simp only [Function.update_of_ne hj]
      exact h.nodes j
  · intro packet hpacket
    rcases List.mem_append.mp hpacket with hold | hnew
    · exact h.wire packet hold
    · obtain ⟨m, hm, rfl⟩ := List.mem_map.mp hnew
      exact hsent m hm

/-- The rule for invariants of a network: it is enough that the nodes react well to what
comes from outside and to the messages of each other. -/
theorem run_net_invariant
    (hkeeps : Keeps react P Q A)
    (harrive : ∀ {i : ι} {c : γ} {packet : ι × μ}, Q packet.1 packet.2 → A i (arrive c packet))
    {ops : List (NetOp ι α γ)} (hops : ∀ i a, .input i a ∈ ops → A i a) {n n' : Net ι σ μ}
    (hrun : run (netStep react arrive) n ops = .ok n') (h : n.All P Q) : n'.All P Q := by
  have hinputs : Along (fun _ op => ∀ i a, op = NetOp.input i a → A i a) (netStep react arrive) n
      ops := by
    refine along_of_forall (fun op hop i a heq => ?_) n
    rw [heq] at hop
    exact hops i a hop
  refine hinputs.invariant (fun n op n' hn hop hstep => ?_) hrun h
  cases op with
  | input i a =>
      exact hn.act hkeeps (hop i a rfl) hstep
  | deliver i place c =>
      rw [netStep] at hstep
      split at hstep
      · cases hstep
        exact hn
      · rename_i packet hpacket
        exact hn.act hkeeps (harrive (hn.wire packet (List.mem_of_getElem? hpacket))) hstep

end Invariant

/-! ## Simulation -/

/-- Both succeed with related results, or both fail in the same way. -/
inductive Related (fault : ε → ε') (r : σ → τ → Prop) : Except ε' σ → Except ε τ → Prop where
  | ok {s : σ} {t : τ} (h : r s t) : Related fault r (.ok s) (.ok t)
  | error (e : ε) : Related fault r (.error (fault e)) (.error e)

theorem related_mapError {fault : ε → ε'} (y : Except ε σ) :
    Related fault Eq (y.mapError fault) y := by
  cases y with
  | ok s => exact .ok rfl
  | error e => exact .error e

theorem Related.eq_mapError
    {fault : ε → ε'} {x : Except ε' σ} {y : Except ε σ} (h : Related fault Eq x y) :
    x = y.mapError fault := by
  cases h with
  | ok h => exact congrArg Except.ok h
  | error e => rfl

theorem Related.mono
    {fault : ε → ε'} {r r' : σ → τ → Prop} {x : Except ε' σ} {y : Except ε τ}
    (h : Related fault r x y) (hr : ∀ {s t}, r s t → r' s t) : Related fault r' x y := by
  cases h with
  | ok h => exact .ok (hr h)
  | error e => exact .error e

theorem Related.map
    {σ' τ' : Type} {fault : ε → ε'} {r : σ → τ → Prop} {r' : σ' → τ' → Prop} {f : σ → σ'}
    {g : τ → τ'} {x : Except ε' σ} {y : Except ε τ} (h : Related fault r x y)
    (hr : ∀ {s t}, r s t → r' (f s) (g t)) : Related fault r' (x.map f) (y.map g) := by
  cases h with
  | ok h => exact .ok (hr h)
  | error e => exact .error e

/-- Related steps make related runs. -/
theorem run_related
    {step : σ → α → Except ε' σ} {step' : τ → β → Except ε τ} {fault : ε → ε'}
    {r : σ → τ → Prop} {R : α → β → Prop}
    (hstep : ∀ {s t a b}, r s t → R a b → Related fault r (step s a) (step' t b))
    {ops : List α} {ops' : List β} (hops : List.Forall₂ R ops ops') {s : σ} {t : τ} (h : r s t) :
    Related fault r (run step s ops) (run step' t ops') := by
  induction hops generalizing s t with
  | nil =>
      exact .ok h
  | cons hop _ ih =>
      rename_i a b ops ops' _
      have hfirst := hstep h hop
      rw [run, run]
      generalize step s a = x at hfirst ⊢
      generalize step' t b = y at hfirst ⊢
      cases hfirst with
      | ok h => exact ih h
      | error e => exact .error e

section Simulation

variable [DecidableEq ι] {react : ι → σ → α → Except ε' (σ × List μ)}
  {react' : ι → τ → β → Except ε (τ × List ν)} {arrive : γ → ι × μ → α} {arrive' : γ → ι × ν → β}
  {fault : ε → ε'} {r : ι → σ → τ → Prop} {w : ι → μ → ν → Prop} {R : ι → α → β → Prop}

/-- A packet stands for another one from the same node. -/
def StandsFor (w : ι → μ → ν → Prop) (packet : ι × μ) (packet' : ι × ν) : Prop :=
  packet.1 = packet'.1 ∧ w packet.1 packet.2 packet'.2

/-- The nodes are related one by one, and so are the messages. -/
structure NetRelated (r : ι → σ → τ → Prop) (w : ι → μ → ν → Prop) (n : Net ι σ μ)
    (n' : Net ι τ ν) : Prop where
  nodes : ∀ i, r i (n.nodes i) (n'.nodes i)
  wire : List.Forall₂ (StandsFor w) n.wire n'.wire

/-- Operations that differ in what comes from outside only. -/
inductive OpRelated (R : ι → α → β → Prop) : NetOp ι α γ → NetOp ι β γ → Prop where
  | input {i : ι} {a : α} {b : β} (h : R i a b) : OpRelated R (.input i a) (.input i b)
  | deliver (i : ι) (place : Nat) (c : γ) : OpRelated R (.deliver i place c) (.deliver i place c)

/-- Nodes in related states react to related inputs in the same way. -/
def ReactAlike (react : ι → σ → α → Except ε' (σ × List μ))
    (react' : ι → τ → β → Except ε (τ × List ν)) (fault : ε → ε') (r : ι → σ → τ → Prop)
    (w : ι → μ → ν → Prop) (R : ι → α → β → Prop) : Prop :=
  ∀ ⦃i s t a b⦄, r i s t → R i a b →
    Related fault (fun x y => r i x.1 y.1 ∧ List.Forall₂ (w i) x.2 y.2) (react i s a) (react' i t b)

theorem NetRelated.act
    {n : Net ι σ μ} {n' : Net ι τ ν} {i : ι} {a : α} {b : β}
    (halike : ReactAlike react react' fault r w R) (h : NetRelated r w n n') (hab : R i a b) :
    Related fault (NetRelated r w) (n.act react i a) (n'.act react' i b) := by
  refine (halike (h.nodes i) hab).map fun {x y} hxy => ⟨fun j => ?_, ?_⟩
  · by_cases hj : j = i
    · subst hj
      simp only [Function.update_self]
      exact hxy.1
    · simp only [Function.update_of_ne hj]
      exact h.nodes j
  · refine List.rel_append h.wire ?_
    rw [List.forall₂_map_left_iff, List.forall₂_map_right_iff]
    exact hxy.2.imp fun _ _ hm => ⟨rfl, hm⟩

theorem NetRelated.step
    {n : Net ι σ μ} {n' : Net ι τ ν} {op : NetOp ι α γ} {op' : NetOp ι β γ}
    (halike : ReactAlike react react' fault r w R)
    (harrive : ∀ {i c packet packet'}, StandsFor w packet packet' →
      R i (arrive c packet) (arrive' c packet'))
    (h : NetRelated r w n n') (hop : OpRelated R op op') :
    Related fault (NetRelated r w) (netStep react arrive n op) (netStep react' arrive' n' op') := by
  cases hop with
  | input hab =>
      exact h.act halike hab
  | deliver i place c =>
      have hlen := h.wire.length_eq
      simp only [netStep]
      cases hpacket : n.wire[place]? with
      | none =>
          have hnone : n'.wire[place]? = none := by
            rw [List.getElem?_eq_none_iff] at hpacket ⊢
            omega
          simp only [hnone]
          exact .ok h
      | some packet =>
          obtain ⟨hlt, rfl⟩ := List.getElem?_eq_some_iff.mp hpacket
          have hsome : n'.wire[place]? = some (n'.wire.get ⟨place, hlen ▸ hlt⟩) :=
            List.getElem?_eq_getElem _
          simp only [hsome]
          exact h.act halike (harrive (h.wire.get hlt (hlen ▸ hlt)))

/-- The rule for two networks: it is enough that their nodes react alike, also to messages
that stand for each other. -/
theorem run_net_related
    (halike : ReactAlike react react' fault r w R)
    (harrive : ∀ {i c packet packet'}, StandsFor w packet packet' →
      R i (arrive c packet) (arrive' c packet'))
    {ops : List (NetOp ι α γ)} {ops' : List (NetOp ι β γ)}
    (hops : List.Forall₂ (OpRelated R) ops ops') {n : Net ι σ μ} {n' : Net ι τ ν}
    (h : NetRelated r w n n') :
    Related fault (NetRelated r w) (run (netStep react arrive) n ops)
      (run (netStep react' arrive') n' ops') :=
  run_related (fun hn hop => hn.step halike harrive hop) hops h

end Simulation

end Network
end Torrentkino
