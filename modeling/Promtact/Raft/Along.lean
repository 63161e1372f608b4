import Promtact.Raft.LocalOperations
import Promtact.Raft.Transfer

/-!
# Facts that a panic does not end

`Along I f Q s` says that running `f` from `s` ends with `Q`, or panics in a state with `I`;
so a fact that is kept along a program holds in its last state either way (`Along.final`).

Most functions of a node leave its term and the pre-vote mask alone, and the store but for
their calls. `Held P` is a fact about these, and not ending it is an effect (`Holding`); what
it asks of the store calls is for each fact to say (`Stores`).
-/

namespace Promtact.Raft

open GhostState
open Function (update)
open Node (indexes)

variable {σ α β : Type} {s s' : Node σ}

/-- Running a program from a state; a panic leaves a state with `I`. -/
def Along (I : Node σ → Prop) (f : NodeM σ α) (Q : α → Node σ → Prop) (s : Node σ) : Prop :=
  Wp (fun _ _ : Unit => True) (fun _ _ => I) f (fun a _ => Q a) () s

namespace Along

variable {ι : Type} {I : Node σ → Prop} {f f' : NodeM σ α} {Q Q' : α → Node σ → Prop} {a : α}

theorem of_ok (hf : f s = .ok a s') (hq : Q a s') : Along I f Q s := by
  unfold Along Wp
  rw [hf]
  exact ⟨(), trivial, hq⟩

theorem mono (hw : Along I f Q s) (hq : ∀ a s', Q a s' → Q' a s') : Along I f Q' s :=
  Wp.mono hw fun a _ s' => hq a s'

theorem bind {k : α → NodeM σ β} {Q : β → Node σ → Prop}
    (hw : Along I f (fun a => Along I (k a) Q) s) : Along I (f >>= k) Q s := Wp.bind hw

theorem ite {c : Prop} [Decidable c] (ht : c → Along I f Q s) (he : ¬ c → Along I f' Q s) :
    Along I (if c then f else f') Q s := Wp.ite ht he

theorem of_pure (hq : Q a s) : Along I (pure a) Q s := Wp.of_pure hq

theorem of_get {Q : Node σ → Node σ → Prop} (hq : Q s s) : Along I get Q s := Wp.of_get hq

theorem of_modify {Q : PUnit → Node σ → Prop} {u : Node σ → Node σ} (hq : Q ⟨⟩ (u s)) :
    Along I (modify u) Q s := Wp.of_modify hq

theorem forM {k : ι → NodeM σ PUnit} {J : Node σ → Prop} {l : List ι}
    (hk : ∀ i ∈ l, ∀ s, J s → Along I (k i) (fun _ => J) s) (hJ : J s) :
    Along I (l.forM k) (fun _ => J) s := Wp.forM (I := fun _ => J) (fun i hi _ s => hk i hi s) hJ

theorem of_ask {q : Node σ → Except Panic α} (hI : I s) (hq : ∀ a, q s = .ok a → Q a s) :
    Along I (ask q) Q s := by
  cases hrun : q s with
  | ok a => exact of_ok (by simp only [ask, hrun]) (hq a hrun)
  | error e =>
    have hask : ask q s = .error e s := by simp only [ask, hrun]
    unfold Along Wp
    rw [hask]
    exact ⟨(), trivial, hI⟩

theorem of_send {Q : Unit → Node σ → Prop} {m : Message} (hI : I s)
    (hq : Q ⟨⟩ { s with outbound := s.outbound ++ [m] }) : Along I (send m) Q s :=
  bind (of_get (ite (fun _ => Wp.of_throw hI) fun _ => of_ok rfl hq))

theorem of_tryStore {Q : Bool → Node σ → Prop} {call : σ → Option StoreError × σ}
    (hok : (call s.store).1 = none → Q true { s with store := (call s.store).2 })
    (hfailed : ∀ err, (call s.store).1 = some err → Q false (failed s (call s.store).2 err)) :
    Along I (tryStore call) Q s := by
  cases hc : (call s.store).1 with
  | none => exact of_ok (tryStore_ok hc) (hok hc)
  | some err => exact of_ok (tryStore_error hc) (hfailed err hc)

/-- What is kept along a program holds in the end. -/
theorem final (hw : Along I f (fun _ => I) s) : I (finalState (f s)) := by
  cases hf : f s with
  | ok a s' =>
    obtain ⟨_, _, hq⟩ := Wp.elim_ok hw hf
    exact hq
  | error e s' =>
    obtain ⟨_, _, hI⟩ := Wp.elim_error hw hf
    exact hI

end Along

/-! ## Facts about the term and the store -/

/-- A fact about the ID, the term, the pre-vote mask and the store. -/
def Held (P : Nat → Nat → Word → σ → Prop) (s : Node σ) : Prop :=
  P s.id s.term s.preVoteMask s.store

/-- The fact is not ended. -/
def Holding (P : Nat → Nat → Word → σ → Prop) (_ : Nat) (s t : Node σ) : Prop := Held P s → Held P t

variable {P : Nat → Nat → Word → σ → Prop}

instance : Effect (Holding P) where
  trans h₁ h₂ hs := h₂ (h₁ hs)
  mono h _ := h
  same hframe _ hs := by
    simp only [Node.frame, Prod.mk.injEq] at hframe
    obtain ⟨hid, hterm, hmask, _, hstore, _⟩ := hframe
    unfold Held
    rw [hid, hterm, hmask, hstore]
    exact hs
  ensurePeers s mask hs := by
    obtain ⟨_, _, _, heq⟩ := ensurePeers_eq mask s
    rw [heq]
    exact hs
  send _ _ hs := hs
  halt _ hs := hs
  peers h := h

instance : Crowns (Holding P) where
  crown _ hs := hs

instance : Applies (Holding P) where
  applied _ _ hs := hs

/-- A function that does not end the fact keeps it along. -/
theorem Within.along {k : Nat} {f : NodeM σ α} (hf : Within (Holding P) k f s) (hs : Held P s) :
    Along (Held P) f (fun _ => Held P) s := by
  have hfinal : Held P (finalState (f s)) := hf hs
  cases hrun : f s with
  | ok a s' =>
    rw [hrun] at hfinal
    exact Along.of_ok hrun hfinal
  | error e s' =>
    rw [hrun] at hfinal
    unfold Along Wp
    rw [hrun]
    exact ⟨(), trivial, hfinal⟩

end Promtact.Raft
