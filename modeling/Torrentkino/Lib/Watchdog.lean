import Mathlib.Tactic.Linarith
import Mathlib.Tactic.Ring
import Mathlib.Data.Option.Basic

/-!
# Peers that are asked whether they are still there

A host asks its peers from time to time whether they are still there, and drops those that have
left too many questions open.  There are rounds in which the peers are asked for which
it is time, and purges in which peers are dropped.  The times of both are drawn, like the
time until a peer is asked again, and `Timing` says between which bounds.

The state is what a host knows of one peer.

**Results.**
* `Inv.step`: nobody is asked again after the last question, because the purge comes first.
* `Trace.late_le`: a peer that does not answer is dropped.
* `Trace.spared`: a peer that has answered is not dropped for a while.
-/

namespace Torrentkino
namespace Watchdog

/-- The bounds of the times.  A peer with `limit` open questions may be dropped; it is asked again
after `rest` at the earliest and `long` at the latest.  The next round comes within `round`
and the next purge within `purge`. -/
structure Timing where
  limit : Nat
  rest : Int
  long : Int
  round : Int
  purge : Int
  limit_pos : 0 < limit
  round_nonneg : 0 ≤ round
  purge_nonneg : 0 ≤ purge
  purge_lt_rest : purge < rest
  rest_le_long : rest ≤ long

/-- A peer of the host: its open questions, and when it is asked again. -/
structure Peer where
  asked : Nat
  due : Int
deriving DecidableEq, Repr

/-- What a host knows of a peer, with the clock and the times of the next round and the next
purge. -/
structure State where
  now : Int
  peer : Option Peer
  round : Int
  purge : Int

/-- What happens. -/
inductive Label where
  | tick
  | answer
  | other
deriving DecidableEq, Repr

section Watchdog

variable (T : Timing)

/-- The purge of a tick. -/
inductive Purges (now : Int) : Option Peer → Int → Option Peer → Int → Prop
  | early {peer next} (hnext : now ≤ next) : Purges now peer next peer next
  | purge {peer next next'} (hnext : next < now) (hagain : next' ≤ now + T.purge) :
      Purges now peer next (peer.filter fun p => p.asked < T.limit) next'

/-- The round of questions of a tick. -/
inductive Asks (now : Int) : Option Peer → Int → Option Peer → Int → Prop
  | early {peer next} (hnext : now ≤ next) : Asks now peer next peer next
  | rests {peer next next'} (hnext : next < now) (hagain : next' ≤ now + T.round)
      (hdue : ∀ p, peer = some p → now ≤ p.due) : Asks now peer next peer next'
  | asks {p next next' due} (hnext : next < now) (hagain : next' ≤ now + T.round)
      (hdue : p.due < now) (hrest : now + T.rest ≤ due) (hlong : due ≤ now + T.long) :
      Asks now (some p) next (some ⟨p.asked + 1, due⟩) next'

/-- One step.  The clock does not go back. -/
inductive Step : Label → State → State → Prop
  /-- A host without peers has nothing to do. -/
  | idle {s now} (hnow : s.now ≤ now) (hpeer : s.peer = none) : Step .tick s { s with now := now }
  | tick {s now peer peer' round purge} (hnow : s.now ≤ now)
      (hpurge : Purges T now s.peer s.purge peer purge)
      (hasks : Asks T now peer s.round peer' round) : Step .tick s ⟨now, peer', round, purge⟩
  | answer {s now due} (hnow : s.now ≤ now) (hrest : now + T.rest ≤ due)
      (hlong : due ≤ now + T.long) :
      Step .answer s { s with now := now, peer := some ⟨0, due⟩ }
  /-- There is no room for the peer that answers. -/
  | unheard {s now} (hnow : s.now ≤ now) (hpeer : s.peer = none) :
      Step .answer s { s with now := now }
  | joins {s now due} (hnow : s.now ≤ now) (hpeer : s.peer = none) (hdue : due ≤ now) :
      Step .other s { s with now := now, peer := some ⟨0, due⟩ }
  | pass {s now} (hnow : s.now ≤ now) : Step .other s { s with now := now }

/-- A sequence of steps, with the states behind them. -/
def Trace : State → List (Label × State) → Prop
  | _, [] => True
  | s, (l, s') :: steps => Step T l s s' ∧ Trace s' steps

variable {T} {s s' : State} {l : Label} {steps : List (Label × State)}

theorem Step.now_le (h : Step T l s s') : s.now ≤ s'.now := by
  cases h <;> assumption

/-- What every step keeps holds in all states of a trace. -/
theorem Trace.invariant
    {P : State → Prop} (hP : ∀ {l s s'}, P s → Step T l s s' → P s') (h : P s)
    (htrace : Trace T s steps) : ∀ x ∈ steps, P x.2 := by
  induction steps generalizing s with
  | nil =>
      intro x hx
      cases hx
  | cons y steps ih =>
      have hy := hP h htrace.1
      intro x hx
      rcases List.mem_cons.mp hx with rfl | hx
      · exact hy
      · exact ih hy htrace.2 x hx

theorem Timing.rest_pos (T : Timing) : 0 < T.rest :=
  T.purge_nonneg.trans_lt T.purge_lt_rest

theorem Timing.long_nonneg (T : Timing) : 0 ≤ T.long :=
  T.rest_pos.le.trans T.rest_le_long

/-! ## The last question -/

/-- The times are within their bounds, and a purge comes before another question to a peer that
has left too many of them open. -/
structure Inv (T : Timing) (s : State) : Prop where
  round_le : s.round ≤ s.now + T.round
  purge_le : s.purge ≤ s.now + T.purge
  due_le : ∀ p, s.peer = some p → p.due ≤ s.now + T.long
  asked_le : ∀ p, s.peer = some p → p.asked ≤ T.limit
  purge_lt : ∀ p, s.peer = some p → p.asked = T.limit → s.purge < p.due

namespace Inv

/-- The peers that are left by a purge. -/
theorem of_purges
    {now : Int} {peer peer' : Option Peer} {next next' : Int}
    (h : Purges T now peer next peer' next') {p : Peer} (hp : peer' = some p) :
    peer = some p ∧ (next' = next ∧ now ≤ next ∨ p.asked < T.limit ∧ next' ≤ now + T.purge) := by
  cases h with
  | early hnext =>
      exact ⟨hp, .inl ⟨rfl, hnext⟩⟩
  | purge hnext hagain =>
      obtain ⟨hpeer, hlimit⟩ := Option.filter_eq_some_iff.mp hp
      exact ⟨hpeer, .inr ⟨of_decide_eq_true hlimit, hagain⟩⟩

theorem purges_le
    {now : Int} {peer peer' : Option Peer} {next next' : Int}
    (h : Purges T now peer next peer' next') (hle : next ≤ now + T.purge) :
    next' ≤ now + T.purge := by
  cases h <;> assumption

theorem asks_le
    {now : Int} {peer peer' : Option Peer} {next next' : Int}
    (h : Asks T now peer next peer' next') (hle : next ≤ now + T.round) :
    next' ≤ now + T.round := by
  cases h <;> assumption

/-- A tick.  The peer that is asked has not been dropped by the purge, and if the purge was not
due, then neither was the question after the last one. -/
theorem tick
    (h : Inv T s) {now : Int} {peer peer' : Option Peer} {round purge : Int}
    (hnow : s.now ≤ now) (hpurge : Purges T now s.peer s.purge peer purge)
    (hasks : Asks T now peer s.round peer' round) :
    Inv T ⟨now, peer', round, purge⟩ := by
  have hround : round ≤ now + T.round :=
    asks_le hasks (h.round_le.trans (Int.add_le_add_right hnow _))
  have hpurge' : purge ≤ now + T.purge :=
    purges_le hpurge (h.purge_le.trans (Int.add_le_add_right hnow _))
  have hkept : ∀ p, peer = some p → p.due ≤ now + T.long ∧ p.asked ≤ T.limit ∧
      (p.asked = T.limit → purge < p.due) := by
    intro p hp
    obtain ⟨hpeer, hcase⟩ := of_purges hpurge hp
    refine ⟨(h.due_le p hpeer).trans (Int.add_le_add_right hnow _), h.asked_le p hpeer, ?_⟩
    intro hlimit
    rcases hcase with ⟨rfl, -⟩ | ⟨hlt, -⟩
    · exact h.purge_lt p hpeer hlimit
    · exact absurd hlimit (Nat.ne_of_lt hlt)
  cases hasks with
  | early hnext =>
      exact ⟨hround, hpurge', fun p hp => (hkept p hp).1, fun p hp => (hkept p hp).2.1,
        fun p hp => (hkept p hp).2.2⟩
  | rests hnext hagain hdue =>
      exact ⟨hround, hpurge', fun p hp => (hkept p hp).1, fun p hp => (hkept p hp).2.1,
        fun p hp => (hkept p hp).2.2⟩
  | asks hnext hagain hdue hrest hlong =>
      rename_i p due
      obtain ⟨hpeer, hcase⟩ := of_purges hpurge rfl
      have hlt : p.asked < T.limit := by
        rcases hcase with ⟨-, hearly⟩ | ⟨hlt, -⟩
        · refine Nat.lt_of_le_of_ne (h.asked_le p hpeer) fun hlimit => ?_
          have := h.purge_lt p hpeer hlimit
          omega
        · exact hlt
      have hlast : purge < due := by
        have := T.purge_lt_rest
        omega
      refine ⟨hround, hpurge', ?_, ?_, ?_⟩
      · rintro q ⟨⟩
        exact hlong
      · rintro q ⟨⟩
        exact hlt
      · rintro q ⟨⟩ -
        exact hlast

theorem step (h : Inv T s) (hstep : Step T l s s') : Inv T s' := by
  have hrest := T.rest_le_long
  have hpurge := T.purge_lt_rest
  have hpurge₀ := T.purge_nonneg
  have hlimit := T.limit_pos
  have hround_le := h.round_le
  have hpurge_le := h.purge_le
  cases hstep with
  | tick hnow hpurge hasks =>
      exact h.tick hnow hpurge hasks
  | idle hnow hpeer | unheard hnow hpeer | pass hnow =>
      refine ⟨by dsimp only; omega, by dsimp only; omega, fun p hp => ?_, h.asked_le, h.purge_lt⟩
      exact (h.due_le p hp).trans (Int.add_le_add_right hnow _)
  | answer hnow hrest hlong | joins hnow hpeer hdue =>
      refine ⟨by dsimp only; omega, by dsimp only; omega, ?_, ?_, ?_⟩
      · rintro p ⟨⟩
        dsimp only
        omega
      · rintro p ⟨⟩
        exact Nat.zero_le _
      · rintro p ⟨⟩ hzero
        exact absurd hzero hlimit.ne

end Inv

theorem Trace.inv (h : Inv T s) (htrace : Trace T s steps) : ∀ x ∈ steps, Inv T x.2 :=
  htrace.invariant (fun h hstep => h.step hstep) h

/-! ## Peers that do not answer -/

/-- The clock ticks again within `gap`. -/
def Attentive (gap : Int) : Int → List (Label × State) → Prop
  | _, [] => True
  | last, (l, s) :: steps =>
      s.now ≤ last + gap ∧ Attentive gap (if l = .tick then s.now else last) steps

/-- The longest time from one question to the next one. -/
def Timing.lap (T : Timing) (gap : Int) : Int :=
  T.long + T.round + gap

/-- When a peer with `asked` open questions is due at the latest, if it has not answered since
`start`. -/
def Timing.latest (T : Timing) (gap start : Int) (asked : Nat) : Int :=
  start + T.long + asked * T.lap gap

/-- When the purge that drops the peer is due at the latest. -/
def Timing.lastPurge (T : Timing) (gap start : Int) : Int :=
  start + T.limit * T.lap gap + T.purge

theorem Timing.latest_succ (T : Timing) (gap start : Int) (k : Nat) :
    T.latest gap start (k + 1) = T.latest gap start k + T.lap gap := by
  rw [Timing.latest, Timing.latest]
  push_cast
  ring

/-- The peer has not answered since `start`, and the last tick was at `last`. -/
structure Late (T : Timing) (gap start last : Int) (s : State) : Prop where
  asked : ∀ p, s.peer = some p → p.asked < T.limit →
    p.due ≤ T.latest gap start p.asked ∧ s.round ≤ T.latest gap start p.asked + T.round ∧
      last ≤ T.latest gap start p.asked + T.round
  full : ∀ p, s.peer = some p → T.limit ≤ p.asked →
    s.purge ≤ T.lastPurge gap start ∧ last ≤ T.lastPurge gap start

section Late

variable {gap start last : Int}

theorem Timing.lap_nonneg (T : Timing) (hgap : 0 ≤ gap) : 0 ≤ T.lap gap := by
  have hlong := T.long_nonneg
  have hround := T.round_nonneg
  rw [Timing.lap]
  omega

theorem Timing.latest_add
    (T : Timing) (start : Int) {k : Nat} (hgap : 0 ≤ gap) (hk : k < T.limit) :
    T.latest gap start k + T.round + gap ≤ start + T.limit * T.lap gap := by
  have hmul : ((k + 1 : Nat) : Int) * T.lap gap ≤ T.limit * T.lap gap :=
    Int.mul_le_mul_of_nonneg_right (Int.ofNat_le.mpr hk) (T.lap_nonneg hgap)
  have hsucc : ((k + 1 : Nat) : Int) * T.lap gap = k * T.lap gap + T.lap gap := by
    push_cast
    ring
  have hlap : T.lap gap = T.long + T.round + gap := rfl
  rw [Timing.latest]
  omega

theorem Inv.late (h : Inv T s) (hgap : 0 ≤ gap) : Late T gap s.now s.now s where
  asked p hp _ := by
    have hlong := T.long_nonneg
    have hmul : 0 ≤ (p.asked : Int) * T.lap gap :=
      Int.mul_nonneg (Int.natCast_nonneg _) (T.lap_nonneg hgap)
    have hdue := h.due_le p hp
    have hround := h.round_le
    have := T.round_nonneg
    rw [Timing.latest]
    omega
  full p hp _ := by
    have hmul : 0 ≤ (T.limit : Int) * T.lap gap :=
      Int.mul_nonneg (Int.natCast_nonneg _) (T.lap_nonneg hgap)
    have hpurge := h.purge_le
    have := T.purge_nonneg
    rw [Timing.lastPurge]
    omega

/-- The clock is not far behind the purge that drops the peer. -/
theorem Late.now_le
    (h : Late T gap start last s) (hgap : 0 ≤ gap) (hpeer : s.peer ≠ none) {now : Int}
    (hnow : now ≤ last + gap) : now ≤ T.lastPurge gap start + gap := by
  obtain ⟨p, hp⟩ := Option.ne_none_iff_exists'.mp hpeer
  rcases Nat.lt_or_ge p.asked T.limit with hlt | hge
  · obtain ⟨-, -, hlast⟩ := h.asked p hp hlt
    have hadd := T.latest_add start hgap hlt
    have := T.purge_nonneg
    rw [Timing.lastPurge]
    omega
  · have := (h.full p hp hge).2
    omega

/-- A tick.  The peer was asked, or it was not yet due, or there was no round because the last
one was a moment ago; and the same for the purge. -/
theorem Late.tick
    (h : Late T gap start last s) (hgap : 0 ≤ gap)
    {now : Int} {peer peer' : Option Peer} {round purge : Int} (hlast : now ≤ last + gap)
    (hpurge_le : purge ≤ now + T.purge) (hpurge : Purges T now s.peer s.purge peer purge)
    (hasks : Asks T now peer s.round peer' round) :
    Late T gap start now ⟨now, peer', round, purge⟩ := by
  have hfull : ∀ p, peer = some p → T.limit ≤ p.asked →
      purge ≤ T.lastPurge gap start ∧ now ≤ T.lastPurge gap start := by
    intro p hp hlimit
    obtain ⟨hpeer, ⟨rfl, hearly⟩ | ⟨hlt, -⟩⟩ := Inv.of_purges hpurge hp
    · have hle := (h.full p hpeer hlimit).1
      exact ⟨hle, hearly.trans hle⟩
    · exact absurd hlt (Nat.not_lt.mpr hlimit)
  cases hasks with
  | early hnext =>
      refine ⟨fun p hp hlt => ?_, hfull⟩
      obtain ⟨hdue, hround, -⟩ := h.asked p (Inv.of_purges hpurge hp).1 hlt
      exact ⟨hdue, hround, hnext.trans hround⟩
  | rests hnext hagain hdue =>
      refine ⟨fun p hp hlt => ?_, hfull⟩
      have hle := (h.asked p (Inv.of_purges hpurge hp).1 hlt).1
      have hnow := hdue p hp
      have := T.round_nonneg
      exact ⟨hle, by dsimp only; omega, by omega⟩
  | asks hnext hagain hdue hrest hlong =>
      rename_i p due
      have hpeer := (Inv.of_purges hpurge rfl).1
      constructor
      · rintro q ⟨⟩ hlt
        obtain ⟨-, -, hbefore⟩ := h.asked p hpeer ((Nat.lt_succ_self _).trans hlt)
        have hsucc := T.latest_succ gap start p.asked
        have hlap : T.lap gap = T.long + T.round + gap := rfl
        have hround := T.round_nonneg
        have hrest_pos := T.rest_pos
        dsimp only
        omega
      · rintro q ⟨⟩ hge
        rcases Nat.lt_or_ge p.asked T.limit with hlt | hge'
        · obtain ⟨-, -, hbefore⟩ := h.asked p hpeer hlt
          have hadd := T.latest_add start hgap hlt
          have := T.purge_nonneg
          rw [Timing.lastPurge]
          dsimp only
          omega
        · exact hfull p rfl hge'

theorem Late.step
    (h : Late T gap start last s) (hinv : Inv T s) (hgap : 0 ≤ gap) (hstep : Step T l s s')
    (hlabel : l ≠ .answer) (hpeer : s.peer ≠ none) (hlast : s'.now ≤ last + gap) :
    Late T gap start (if l = .tick then s'.now else last) s' := by
  cases hstep with
  | idle hnow hnone | joins hnow hnone hdue | unheard hnow hnone =>
      exact absurd hnone hpeer
  | answer hnow hrest hlong =>
      exact absurd rfl hlabel
  | pass hnow =>
      exact ⟨h.asked, h.full⟩
  | tick hnow hpurge hasks =>
      have hpurge_le := Inv.purges_le hpurge (hinv.purge_le.trans (Int.add_le_add_right hnow _))
      exact h.tick hgap hlast hpurge_le hpurge hasks

/-- A peer that stays without answering. -/
theorem Trace.late_le
    (hinv : Inv T s) (h : Late T gap start last s) (hgap : 0 ≤ gap) (htrace : Trace T s steps)
    (hlabel : ∀ x ∈ steps, x.1 ≠ .answer) (hticks : Attentive gap last steps)
    (hpeer : s.peer ≠ none) (hpeers : ∀ x ∈ steps, x.2.peer ≠ none) :
    ∀ x ∈ steps, x.2.now ≤ T.lastPurge gap start + gap := by
  induction steps generalizing s last with
  | nil =>
      intro x hx
      cases hx
  | cons y steps ih =>
      obtain ⟨l, s₁⟩ := y
      obtain ⟨hnow, hticks⟩ := hticks
      have hl := hlabel _ List.mem_cons_self
      have hs₁ := hpeers _ List.mem_cons_self
      have h₁ := h.step hinv hgap htrace.1 hl hpeer hnow
      intro x hx
      rcases List.mem_cons.mp hx with rfl | hx
      · exact h.now_le hgap hpeer hnow
      · exact ih (hinv.step htrace.1) h₁ htrace.2 (fun x hx => hlabel x (List.mem_cons_of_mem _ hx))
          hticks hs₁ (fun x hx => hpeers x (List.mem_cons_of_mem _ hx)) x hx

end Late

/-! ## Peers that answer -/

/-- The earliest time at which a peer is dropped, if it has nothing to say from now on. -/
def Timing.earliest (T : Timing) (now : Int) (p : Peer) : Int :=
  max now p.due + (T.limit - 1 - p.asked) * T.rest

/-- The peer stays until then. -/
structure Spared (T : Timing) (till : Int) (s : State) : Prop where
  le_now : till ≤ s.now + T.limit * T.rest
  peer : s.now < till → ∃ p, s.peer = some p ∧ p.asked < T.limit ∧ till ≤ T.earliest s.now p

section Spared

variable {till : Int}

theorem Timing.earliest_asked
    (T : Timing) {now now' : Int} {p : Peer} {due : Int} (hnow : now ≤ now') (hdue : p.due < now')
    (hrest : now' + T.rest ≤ due) :
    T.earliest now p ≤ T.earliest now' ⟨p.asked + 1, due⟩ := by
  have hmul : ((T.limit : Int) - 1 - p.asked) * T.rest =
      ((T.limit : Int) - 1 - (p.asked + 1 : Nat)) * T.rest + T.rest := by
    push_cast
    ring
  rw [Timing.earliest, Timing.earliest, hmul]
  dsimp only
  omega

theorem Timing.earliest_mono (T : Timing) {now now' : Int} (hnow : now ≤ now') (p : Peer) :
    T.earliest now p ≤ T.earliest now' p := by
  rw [Timing.earliest, Timing.earliest]
  omega

theorem Timing.le_earliest_answered (T : Timing) {now due : Int} (hrest : now + T.rest ≤ due) :
    now + T.limit * T.rest ≤ T.earliest now ⟨0, due⟩ := by
  have hmul : ((T.limit : Int) - 1 - (0 : Nat)) * T.rest = T.limit * T.rest - T.rest := by
    push_cast
    ring
  rw [Timing.earliest, hmul]
  dsimp only
  omega

theorem Spared.tick
    (h : Spared T till s) {now : Int} {peer peer' : Option Peer} {round purge : Int}
    (hnow : s.now ≤ now) (hpurge : Purges T now s.peer s.purge peer purge)
    (hasks : Asks T now peer s.round peer' round) :
    Spared T till ⟨now, peer', round, purge⟩ where
  le_now := h.le_now.trans (Int.add_le_add_right hnow _)
  peer huntil := by
    obtain ⟨p, hp, hlt, hle⟩ := h.peer (lt_of_le_of_lt hnow huntil)
    have hkept : peer = some p := by
      cases hpurge with
      | early hnext =>
          exact hp
      | purge hnext hagain =>
          rw [hp, Option.filter_some, if_pos (decide_eq_true hlt)]
    cases hasks with
    | early hnext =>
        exact ⟨p, hkept, hlt, hle.trans (T.earliest_mono hnow p)⟩
    | rests hnext hagain hdue =>
        exact ⟨p, hkept, hlt, hle.trans (T.earliest_mono hnow p)⟩
    | asks hnext hagain hdue hrest hlong =>
        cases hkept
        have hasked := T.earliest_asked hnow hdue hrest
        refine ⟨_, rfl, ?_, hle.trans hasked⟩
        -- A peer that is asked for the last time has reached that time.
        refine Nat.lt_of_le_of_ne hlt fun hlast => ?_
        have hzero : ((T.limit : Int) - 1 - p.asked) * T.rest = 0 := by
          have hone : (T.limit : Int) - 1 - p.asked = 0 := by
            dsimp only at hlast
            omega
          rw [hone, Int.zero_mul]
        rw [Timing.earliest, hzero] at hle
        dsimp only at huntil
        omega

theorem Spared.step (h : Spared T till s) (hstep : Step T l s s') : Spared T till s' := by
  have hle := h.le_now
  cases hstep with
  | tick hnow hpurge hasks =>
      exact h.tick hnow hpurge hasks
  | idle hnow hnone | unheard hnow hnone | joins hnow hnone hdue =>
      refine ⟨by dsimp only; omega, fun huntil => ?_⟩
      obtain ⟨p, hp, -⟩ := h.peer (lt_of_le_of_lt hnow huntil)
      cases hp.symm.trans hnone
  | pass hnow =>
      refine ⟨by dsimp only; omega, fun huntil => ?_⟩
      obtain ⟨p, hp, hlt, hle⟩ := h.peer (lt_of_le_of_lt hnow huntil)
      exact ⟨p, hp, hlt, hle.trans (T.earliest_mono hnow p)⟩
  | answer hnow hrest hlong =>
      have hanswered := T.le_earliest_answered hrest
      exact ⟨by dsimp only; omega, fun _ => ⟨_, rfl, T.limit_pos, by dsimp only; omega⟩⟩

/-- A peer that answers is spared as long as its questions take. -/
theorem Step.spared (h : Step T .answer s s') (hpeer : s'.peer ≠ none) :
    Spared T (s'.now + T.limit * T.rest) s' := by
  cases h with
  | unheard hnow hnone =>
      exact absurd hnone hpeer
  | answer hnow hrest hlong =>
      refine ⟨le_refl _, fun _ => ⟨_, rfl, T.limit_pos, T.le_earliest_answered hrest⟩⟩

/-- A peer is not dropped before its time. -/
theorem Trace.spared (h : Spared T till s) (htrace : Trace T s steps) :
    ∀ x ∈ steps, x.2.now < till → x.2.peer ≠ none := by
  intro x hx huntil hnone
  have hx := htrace.invariant (fun h hstep => h.step hstep) h x hx
  obtain ⟨p, hp, -⟩ := hx.peer huntil
  cases hp.symm.trans hnone

end Spared

end Watchdog
end Watchdog
end Torrentkino
