import Mathlib

/-!
# Weakest preconditions with a ghost state

A program in `EStateM ε S` either returns with a state or stops with an error and
a state. Next to the state we follow a *ghost* `g : G` that the program never
sees. `Wp R C f Q g s` says that running `f` from `s` ends in a state whose ghost
`g'` is reachable from `g` by `R`, and that

* a normal end satisfies `Q`;
* an error satisfies `C`, which is what survives a crash.

The prover picks the new ghost; `R` says which choices are allowed. It is a
preorder, so that runs compose (`Wp.bind`).
-/

namespace GhostState

variable {ε S α β G : Type}

/-- Running `f` from `s` with ghost `g` ends well. -/
def Wp (R : G → G → Prop) (C : ε → G → S → Prop) (f : EStateM ε S α)
    (Q : α → G → S → Prop) (g : G) (s : S) : Prop :=
  match f s with
  | .ok a s' => ∃ g', R g g' ∧ Q a g' s'
  | .error e s' => ∃ g', R g g' ∧ C e g' s'

theorem bind_of_ok {f : EStateM ε S α} {k : α → EStateM ε S β} {s s' : S} {a : α}
    (hf : f s = .ok a s') : (f >>= k) s = k a s' := by
  show EStateM.bind f k s = k a s'
  rw [EStateM.bind, hf]

namespace Wp

variable {R : G → G → Prop} {C : ε → G → S → Prop} {Q Q' : α → G → S → Prop}
variable {f : EStateM ε S α} {g g' : G} {s s' : S}

/-- A program that is known to end normally. -/
theorem of_ok {a : α} (hf : f s = .ok a s') (hR : R g g') (hQ : Q a g' s') :
    Wp R C f Q g s := by
  unfold Wp
  rw [hf]
  exact ⟨g', hR, hQ⟩

/-- A program that is known to stop with an error. -/
theorem of_error {e : ε} (hf : f s = .error e s') (hR : R g g') (hC : C e g' s') :
    Wp R C f Q g s := by
  unfold Wp
  rw [hf]
  exact ⟨g', hR, hC⟩

theorem elim_ok {a : α} (hw : Wp R C f Q g s) (hf : f s = .ok a s') :
    ∃ g', R g g' ∧ Q a g' s' := by
  unfold Wp at hw
  rwa [hf] at hw

theorem elim_error {e : ε} (hw : Wp R C f Q g s) (hf : f s = .error e s') :
    ∃ g', R g g' ∧ C e g' s' := by
  unfold Wp at hw
  rwa [hf] at hw

theorem mono (hw : Wp R C f Q g s) (hQ : ∀ a g' s', Q a g' s' → Q' a g' s') :
    Wp R C f Q' g s := by
  cases hf : f s with
  | ok a s' =>
    obtain ⟨g', hR, hq⟩ := hw.elim_ok hf
    exact of_ok hf hR (hQ a g' s' hq)
  | error e s' =>
    obtain ⟨g', hR, hc⟩ := hw.elim_error hf
    exact of_error hf hR hc

theorem ite {c : Prop} [Decidable c] {f' : EStateM ε S α} (ht : c → Wp R C f Q g s)
    (he : ¬ c → Wp R C f' Q g s) : Wp R C (if c then f else f') Q g s := by
  split
  · exact ht ‹_›
  · exact he ‹_›

section Preorder

variable [IsPreorder G R]

theorem of_pure {a : α} (hQ : Q a g s) : Wp R C (pure a) Q g s :=
  of_ok rfl (Std.Refl.refl g) hQ

/-- The ghost moves while the program stands still. -/
theorem ghost (hR : R g g') (hw : Wp R C f Q g' s) : Wp R C f Q g s := by
  cases hf : f s with
  | ok a s' =>
    obtain ⟨g'', hR', hq⟩ := hw.elim_ok hf
    exact of_ok hf (IsTrans.trans _ _ _ hR hR') hq
  | error e s' =>
    obtain ⟨g'', hR', hc⟩ := hw.elim_error hf
    exact of_error hf (IsTrans.trans _ _ _ hR hR') hc

theorem bind {k : α → EStateM ε S β} {Q : β → G → S → Prop}
    (hw : Wp R C f (fun a => Wp R C (k a) Q) g s) : Wp R C (f >>= k) Q g s := by
  cases hf : f s with
  | ok a s' =>
    obtain ⟨g', hR, hk⟩ := hw.elim_ok hf
    have hrun : (f >>= k) s = k a s' := bind_of_ok hf
    have hk' := ghost hR hk
    unfold Wp at hk' ⊢
    rwa [hrun]
  | error e s' =>
    obtain ⟨g', hR, hc⟩ := hw.elim_error hf
    refine of_error (?_ : (f >>= k) s = .error e s') hR hc
    show EStateM.bind f k s = _
    rw [EStateM.bind, hf]

theorem of_get {Q : S → G → S → Prop} (hQ : Q s g s) : Wp R C get Q g s :=
  of_ok rfl (Std.Refl.refl g) hQ

theorem of_set {Q : PUnit → G → S → Prop} (hQ : Q ⟨⟩ g s') : Wp R C (set s') Q g s :=
  of_ok rfl (Std.Refl.refl g) hQ

theorem of_modify {Q : PUnit → G → S → Prop} {u : S → S} (hQ : Q ⟨⟩ g (u s)) :
    Wp R C (modify u) Q g s :=
  of_ok rfl (Std.Refl.refl g) hQ

theorem of_throw {e : ε} (hC : C e g s) : Wp R C (throw e) Q g s :=
  of_error rfl (Std.Refl.refl g) hC

/-- A loop over a list keeps what its body keeps. -/
theorem forM {ι : Type} {k : ι → EStateM ε S PUnit} {I : G → S → Prop} {l : List ι}
    (hk : ∀ i ∈ l, ∀ g s, I g s → Wp R C (k i) (fun _ => I) g s) (hI : I g s) :
    Wp R C (l.forM k) (fun _ => I) g s := by
  induction l generalizing g s with
  | nil => exact of_pure hI
  | cons i l ih =>
    refine bind (mono (hk i List.mem_cons_self g s hI) ?_)
    intro _ g' s' hI'
    exact ih (fun j hj => hk j (List.mem_cons_of_mem i hj)) hI'

/-- A loop over consecutive numbers, with an invariant that follows the counter. -/
theorem forM_range {k : Nat → EStateM ε S PUnit} {I : Nat → G → S → Prop} {first count : Nat}
    (hk : ∀ i, first ≤ i → i < first + count → ∀ g s, I i g s →
      Wp R C (k i) (fun _ => I (i + 1)) g s) (hI : I first g s) :
    Wp R C ((List.range' first count).forM k) (fun _ => I (first + count)) g s := by
  induction count generalizing first g s with
  | zero => exact of_pure hI
  | succ count ih =>
    refine bind (mono (hk first (Nat.le_refl _) (by omega) g s hI) ?_)
    intro _ g' s' hI'
    have := ih (fun i hi hi' => hk i (by omega) (by omega)) hI'
    rwa [show first + 1 + count = first + (count + 1) by omega] at this

/-- A fold over consecutive numbers, with an invariant that follows the counter. -/
theorem foldlM_range {k : β → Nat → EStateM ε S β} {I : Nat → β → G → S → Prop}
    {first count : Nat} {b : β}
    (hk : ∀ i, first ≤ i → i < first + count → ∀ b g s, I i b g s →
      Wp R C (k b i) (I (i + 1)) g s) (hI : I first b g s) :
    Wp R C ((List.range' first count).foldlM k b) (I (first + count)) g s := by
  induction count generalizing first b g s with
  | zero => exact of_pure hI
  | succ count ih =>
    rw [List.range'_succ, List.foldlM_cons]
    refine bind (mono (hk first (Nat.le_refl _) (by omega) b g s hI) ?_)
    intro b' g' s' hI'
    have := ih (fun i hi hi' => hk i (by omega) (by omega)) hI'
    rwa [show first + 1 + count = first + (count + 1) by omega] at this

end Preorder

end Wp

end GhostState
