import Mathlib

/-!
# Runs of a machine

A machine is a partial step function. A run is a list of actions, each taken in the
state behind the one before it; a run that meets a step that is not possible is none.

`Always` says that every action of a run meets a condition on the state it happens in.
The rule of the library is `run_invariant`: what a step keeps under the condition, a
run keeps. `Follows` is for two computations that are compared step by step.
-/

namespace Promtact.Runs

variable {S A : Type} {step : S → A → Option S} {p q : S → A → Prop}
variable {s s' : S} {a : A} {as bs : List A}

/-- The state behind a list of actions. -/
def run (step : S → A → Option S) (s : S) (as : List A) : Option S := as.foldlM step s

/-- Every action meets the condition in the state it happens in. -/
def Always (step : S → A → Option S) (p : S → A → Prop) : S → List A → Prop
  | _, [] => True
  | s, a :: as => p s a ∧ ∀ s', step s a = some s' → Always step p s' as

instance Always.decidable [∀ s a, Decidable (p s a)] :
    ∀ (s : S) (as : List A), Decidable (Always step p s as)
  | _, [] => isTrue trivial
  | s, a :: as =>
    match hstep : step s a with
    | none => decidable_of_iff (p s a) ⟨fun h => ⟨h, fun s' hs => by rw [hstep] at hs; cases hs⟩,
        And.left⟩
    | some s' =>
      have : Decidable (Always step p s' as) := decidable s' as
      decidable_of_iff (p s a ∧ Always step p s' as)
        (and_congr_right fun _ => ⟨fun h s₁ hs => by rw [hstep] at hs; cases hs; exact h,
          fun h => h s' hstep⟩)

theorem run_cons : run step s (a :: as) = some s' ↔
    ∃ s₁, step s a = some s₁ ∧ run step s₁ as = some s' := by
  unfold run
  rw [List.foldlM_cons]
  exact Option.bind_eq_some_iff

theorem run_append : run step s (as ++ bs) = (run step s as).bind (run step · bs) :=
  List.foldlM_append

theorem Always.mono (hp : Always step p s as) (himp : ∀ s a, p s a → q s a) :
    Always step q s as := by
  induction as generalizing s with
  | nil => trivial
  | cons a as ih => exact ⟨himp s a hp.1, fun s' hs => ih (hp.2 s' hs)⟩

/-- Two conditions on the steps of a run. -/
theorem Always.and (hp : Always step p s as) (hq : Always step q s as) :
    Always step (fun s a => p s a ∧ q s a) s as := by
  induction as generalizing s with
  | nil => trivial
  | cons a as ih =>
    exact ⟨⟨hp.1, hq.1⟩, fun s' hs => ih (hp.2 s' hs) (hq.2 s' hs)⟩

/-- What holds in front of every action and in the end holds behind every action. -/
theorem Always.next {q : S → Prop} (hp : Always step p s as) (hq : ∀ s a, p s a → q s)
    (hrun : run step s as = some s') (hend : q s') :
    Always step (fun s a => ∀ s₁, step s a = some s₁ → q s₁) s as := by
  induction as generalizing s with
  | nil => trivial
  | cons a as ih =>
    obtain ⟨s₁, h₁, hrest⟩ := run_cons.mp hrun
    have hq₁ : q s₁ := by
      cases as with
      | nil =>
        cases hrest
        exact hend
      | cons b bs => exact hq s₁ b (hp.2 s₁ h₁).1
    refine ⟨fun s₂ h₂ => ?_, fun s₂ h₂ => ?_⟩
    · cases h₁.symm.trans h₂
      exact hq₁
    · cases h₁.symm.trans h₂
      exact ih (hp.2 s₁ h₁) hrest

theorem always_of_forall {p : A → Prop} (hp : ∀ a ∈ as, p a) :
    Always step (fun _ a => p a) s as := by
  induction as generalizing s with
  | nil => trivial
  | cons a as ih =>
    exact ⟨hp a List.mem_cons_self, fun _ _ => ih fun b hb => hp b (List.mem_cons_of_mem a hb)⟩

/-- What every step keeps under the condition, a run keeps. -/
theorem run_invariant {I : S → Prop}
    (hstep : ∀ s a s', I s → p s a → step s a = some s' → I s') (hs : I s)
    (hp : Always step p s as) (hrun : run step s as = some s') : I s' := by
  induction as generalizing s with
  | nil =>
    cases hrun
    exact hs
  | cons a as ih =>
    obtain ⟨s₁, h₁, hrest⟩ := run_cons.mp hrun
    exact ih (hstep s a s₁ hs hp.1 h₁) (hp.2 s₁ h₁) hrest

/-- A check of the state behind a run, by computing the run. -/
theorem run_check (step : S → A → Option S) (s : S) (as : List A) (p : S → Prop) [DecidablePred p]
    (h : (run step s as).any (fun s' => decide (p s')) = true) :
    ∃ s', run step s as = some s' ∧ p s' := by
  obtain ⟨s', hrun, hp⟩ := (Option.any_eq_true ..).mp h
  exact ⟨s', hrun, of_decide_eq_true hp⟩

/-! ## Two computations side by side -/

section Follows

variable {α β α' β' : Type} {live : Prop} {R : α → β → Prop} {x : Option α} {y : Option β}

/-- Where the left computation has a result, the right one has one too provided it is
live, and each result of it is related to the left one. -/
def Follows (live : Prop) (R : α → β → Prop) (x : Option α) (y : Option β) : Prop :=
  ∀ a, x = some a → (live → y.isSome) ∧ ∀ b, y = some b → R a b

/-- The right computation always has a result. -/
theorem Follows.of_some (h : ∀ a, x = some a → ∃ b, y = some b ∧ R a b) : Follows live R x y := by
  intro a ha
  obtain ⟨b, rfl, hR⟩ := h a ha
  refine ⟨fun _ => rfl, fun b' hb => ?_⟩
  cases hb
  exact hR

theorem Follows.bind {Q : α' → β' → Prop} {f : α → Option α'} {g : β → Option β'}
    (h : Follows live R x y) (hnext : ∀ a b, R a b → Follows live Q (f a) (g b)) :
    Follows live Q (x.bind f) (y.bind g) := by
  intro a' ha'
  obtain ⟨a, ha, hf⟩ := Option.bind_eq_some_iff.mp ha'
  obtain ⟨hlive, hR⟩ := h a ha
  refine ⟨fun hl => ?_, fun b' hb' => ?_⟩
  · obtain ⟨b, hb⟩ := Option.isSome_iff_exists.mp (hlive hl)
    rw [hb]
    exact (hnext a b (hR b hb) a' hf).1 hl
  · obtain ⟨b, hb, hg⟩ := Option.bind_eq_some_iff.mp hb'
    exact (hnext a b (hR b hb) a' hf).2 b' hg

/-- Two loops over one list. The relation may depend on what is left of it. -/
theorem Follows.foldlM {A : Type} {R : List A → α → β → Prop} {f : α → A → Option α}
    {g : β → A → Option β} {l : List A} {a : α} {b : β} (h : R l a b)
    (hstep : ∀ m rest a b, R (m :: rest) a b → Follows live (R rest) (f a m) (g b m)) :
    Follows live (R []) (l.foldlM f a) (l.foldlM g b) := by
  induction l generalizing a b with
  | nil =>
    refine Follows.of_some fun a' ha' => ⟨b, rfl, ?_⟩
    cases ha'
    exact h
  | cons m rest ih =>
    rw [List.foldlM_cons, List.foldlM_cons]
    exact (hstep m rest a b h).bind fun a' b' h' => ih h'

end Follows

end Promtact.Runs
