import Mathlib

/-!
# The synod

Agreement by numbered ballots, over any acceptors, values and quorums. A state says
which values were proposed at which ballot, which acceptor accepted what, and below
which ballot an acceptor will accept nothing any more. A value is proposed only when
a quorum rules out every other value at every lower ballot (`Safe`); then no two
values are ever chosen (`Valid.agreement`).

`Valid` is kept by promises, by acceptances of what was proposed, and by proposals
that follow the reports of a quorum (`Report`).
-/

namespace Synod

variable {A V : Type}

structure State (A V : Type) where
  proposed : Nat → V → Prop
  accepted : A → Nat → V → Prop
  /-- The acceptor accepts nothing below this ballot any more. -/
  promised : A → Nat

/-- Sets of acceptors of which any two meet. -/
structure Quorums (A : Type) where
  IsQuorum : Set A → Prop
  meet : ∀ S T, IsQuorum S → IsQuorum T → ∃ a, a ∈ S ∧ a ∈ T

variable (Q : Quorums A)

/-- A quorum has accepted the value at the ballot. -/
def Chosen (s : State A V) (b : Nat) (v : V) : Prop :=
  ∃ S, Q.IsQuorum S ∧ ∀ a ∈ S, s.accepted a b v

/-- No other value was or will be chosen below the ballot. -/
def Safe (s : State A V) (b : Nat) (v : V) : Prop :=
  ∀ c < b, ∃ S, Q.IsQuorum S ∧ ∀ a ∈ S, c < s.promised a ∧ ∀ w, s.accepted a c w → w = v

structure Valid (s : State A V) : Prop where
  backed : ∀ a b v, s.accepted a b v → s.proposed b v
  unique : ∀ b v w, s.proposed b v → s.proposed b w → v = w
  safe : ∀ b v, s.proposed b v → Safe Q s b v

variable {Q} {s s' : State A V} {b c : Nat} {v w : V}

theorem Valid.chosen_proposed (hv : Valid Q s) (hc : Chosen Q s b v) : s.proposed b v := by
  obtain ⟨S, hS, hacc⟩ := hc
  obtain ⟨a, ha, _⟩ := Q.meet S S hS hS
  exact hv.backed a b v (hacc a ha)

theorem Valid.chosen_lower (hv : Valid Q s) (hb : Chosen Q s b v) (hc : Chosen Q s c w)
    (hlt : c < b) : w = v := by
  obtain ⟨S, hS, hguard⟩ := hv.safe b v (hv.chosen_proposed hb) c hlt
  obtain ⟨T, hT, hacc⟩ := hc
  obtain ⟨a, haS, haT⟩ := Q.meet S T hS hT
  exact (hguard a haS).2 w (hacc a haT)

/-- At most one value is chosen. -/
theorem Valid.agreement (hv : Valid Q s) (hb : Chosen Q s b v) (hc : Chosen Q s c w) : v = w := by
  rcases Nat.lt_trichotomy b c with hlt | rfl | hlt
  · exact hv.chosen_lower hc hb hlt
  · exact hv.unique b v w (hv.chosen_proposed hb) (hv.chosen_proposed hc)
  · exact (hv.chosen_lower hb hc hlt).symm

/-! ## Steps -/

/-- Promises only grow, and an acceptance is new only at or above the promise. -/
structure Extends (s s' : State A V) : Prop where
  promised : ∀ a, s.promised a ≤ s'.promised a
  accepted : ∀ a b v, s'.accepted a b v → s.accepted a b v ∨ s.promised a ≤ b

theorem Safe.extends (hs : Safe Q s b v) (he : Extends s s') : Safe Q s' b v := by
  intro c hc
  obtain ⟨S, hS, hguard⟩ := hs c hc
  refine ⟨S, hS, fun a ha => ?_⟩
  obtain ⟨hlt, hacc⟩ := hguard a ha
  refine ⟨Nat.lt_of_lt_of_le hlt (he.promised a), fun w hw => ?_⟩
  rcases he.accepted a c w hw with hold | hle
  · exact hacc w hold
  · omega

/-- Acceptors may promise, and accept what was proposed. -/
theorem Valid.extends (hv : Valid Q s) (he : Extends s s') (hprop : s'.proposed = s.proposed)
    (hback : ∀ a b v, s'.accepted a b v → s.proposed b v) : Valid Q s' where
  backed a b v hacc := by
    rw [hprop]
    exact hback a b v hacc
  unique b v w hb hc := by
    rw [hprop] at hb hc
    exact hv.unique b v w hb hc
  safe b v hb := by
    rw [hprop] at hb
    exact (hv.safe b v hb).extends he

/-- What the acceptors of a quorum reported when they promised ballot `b`: the
highest ballot below `b` at which one of them had accepted, with the value. -/
structure Report (Q : Quorums A) (s : State A V) (S : Set A) (b : Nat) (best : Option (Nat × V)) :
    Prop where
  quorum : Q.IsQuorum S
  promised : ∀ a ∈ S, b ≤ s.promised a
  below : ∀ c v, best = some (c, v) → c < b ∧ ∃ a, s.accepted a c v
  highest : ∀ a ∈ S, ∀ c w, s.accepted a c w → c < b → ∃ d v, best = some (d, v) ∧ c ≤ d

/-- The value of the best report is safe, and any value is when there is none. -/
theorem Report.safe {S : Set A} {best : Option (Nat × V)} (hr : Report Q s S b best)
    (hv : Valid Q s) (hval : ∀ d u, best = some (d, u) → v = u) : Safe Q s b v := by
  intro c hc
  by_cases hlow : ∃ d u, best = some (d, u) ∧ c < d
  · -- below the best report its own safety counts
    obtain ⟨d, u, hbest, hlt⟩ := hlow
    obtain ⟨_, a, hacc⟩ := hr.below d u hbest
    rw [hval d u hbest]
    exact hv.safe d u (hv.backed a d u hacc) c hlt
  · refine ⟨S, hr.quorum, fun a ha => ⟨Nat.lt_of_lt_of_le hc (hr.promised a ha), fun w hw => ?_⟩⟩
    obtain ⟨d, u, hbest, hle⟩ := hr.highest a ha c w hw hc
    have hcd : c = d := by
      by_contra hne
      exact hlow ⟨d, u, hbest, by omega⟩
    subst hcd
    obtain ⟨_, a', hacc⟩ := hr.below c u hbest
    rw [hval c u hbest]
    exact hv.unique c w u (hv.backed a c w hw) (hv.backed a' c u hacc)

def State.propose (s : State A V) (b : Nat) (v : V) : State A V :=
  { s with proposed := fun c w => s.proposed c w ∨ c = b ∧ w = v }

/-- A ballot without a proposal may get one that is safe. -/
theorem Valid.propose (hv : Valid Q s) (hnew : ∀ w, ¬ s.proposed b w) (hsafe : Safe Q s b v) :
    Valid Q (s.propose b v) where
  backed a c w hacc := Or.inl (hv.backed a c w hacc)
  unique c u w hu hw := by
    rcases hu with hu | ⟨rfl, rfl⟩
    · rcases hw with hw | ⟨rfl, rfl⟩
      · exact hv.unique c u w hu hw
      · exact absurd hu (hnew u)
    · rcases hw with hw | ⟨_, rfl⟩
      · exact absurd hw (hnew w)
      · rfl
  safe c w hw := by
    rcases hw with hw | ⟨rfl, rfl⟩
    · exact hv.safe c w hw
    · exact hsafe

end Synod
