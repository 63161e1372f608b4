import Promtact.Raft.Matching

/-!
# Recorded store calls

A `Recorder` is a store with a list of the calls that were made to it and whether
they returned an error. The list is never read, so a node over a recorder does what
it does over the store.

Terms and indexes are natural numbers here and machine words in the code. A store
that writes bytes is faithful only for calls with numbers that fit; the list of
calls tells when that was so (`Recorder.InRange`).
-/

namespace Promtact.Raft

variable {σ τ : Type}

inductive StoreCall
  | saveHardState (hard : HardState)
  | append (index : Nat) (entry : Entry)
  | saveSnapshot (snapshot : Snapshot)
  | compactLog (index : Nat)
  deriving DecidableEq

/-- The arguments are values of their Go types, and log indexes are below the two
that the write-ahead log reserves. -/
def StoreCall.InRange : StoreCall → Prop
  | .saveHardState hard => hard.term < 2 ^ 64 ∧ hard.votedFor < 2 ^ 32 ∧ hard.commit < 2 ^ 64
  | .append index entry => index < 2 ^ 64 - 2 ∧ entry.term < 2 ^ 64
  | .saveSnapshot snapshot => snapshot.lastIndex < 2 ^ 64 - 2 ∧ snapshot.lastTerm < 2 ^ 64 ∧
      snapshot.state.length < 2 ^ 63
  | .compactLog index => index < 2 ^ 64 - 2

instance (call : StoreCall) : Decidable call.InRange := by
  unfold StoreCall.InRange
  split <;> infer_instance

structure Recorder (σ : Type) where
  store : σ
  /-- The calls in their order, each with whether it returned no error. -/
  calls : List (StoreCall × Bool) := []
  deriving Inhabited

namespace Recorder

def record (call : StoreCall) (f : σ → Option StoreError × σ) (r : Recorder σ) :
    Option StoreError × Recorder σ :=
  ((f r.store).1, ⟨(f r.store).2, r.calls ++ [(call, (f r.store).1.isNone)]⟩)

instance [StableStore σ] : StableStore (Recorder σ) where
  saveHardState hard := record (.saveHardState hard) (StableStore.saveHardState hard)
  append index entry := record (.append index entry) (StableStore.append index entry)
  snapshots := StableStore.snapshots.map fun store => {
    saveSnapshot := fun snapshot => record (.saveSnapshot snapshot) (store.saveSnapshot snapshot)
    compactLog := fun index => record (.compactLog index) (store.compactLog index) }

instance [OpenStore σ] : OpenStore (Recorder σ) where
  reopen r := (OpenStore.reopen r.store).map fun (store, recovery) => (⟨store, r.calls⟩, recovery)

def InRange (r : Recorder σ) : Prop := ∀ call ∈ r.calls, call.1.InRange

instance (r : Recorder σ) : Decidable r.InRange :=
  inferInstanceAs (Decidable (∀ call ∈ r.calls, call.1.InRange))

/-! ## Links -/

/-- Both stores do the call, or both refuse it. -/
def Agree (rel R : σ → τ → Prop) (x : Option StoreError × σ) (y : Option StoreError × τ) : Prop :=
  (x.1 = none ∧ y.1 = none ∧ R x.2 y.2) ∨ (x.1 ≠ none ∧ y.1 ≠ none ∧ rel x.2 y.2)

/-- Stores are related as long as every call was in range. -/
def bond (rel : σ → τ → Prop) (saved : Snapshot → σ → τ → Prop) : Bond (Recorder σ) τ where
  rel r t := r.InRange ∧ rel r.store t
  saved snapshot r t := r.InRange ∧ saved snapshot r.store t
  lost r := ¬ r.InRange
  loose := False

theorem inRange_record {call : StoreCall} {f : σ → Option StoreError × σ} {r : Recorder σ} :
    (record call f r).2.InRange ↔ r.InRange ∧ call.InRange := by
  simp [record, InRange, or_imp, forall_and]

theorem lost_record {call : StoreCall} {f : σ → Option StoreError × σ} (r : Recorder σ)
    (h : ¬ r.InRange) : ¬ (record call f r).2.InRange :=
  fun hin => h (inRange_record.mp hin).1

/-- A call in range has the answer of the other store, and what is related stays so. -/
theorem answers {rel : σ → τ → Prop} {saved : Snapshot → σ → τ → Prop} {R : σ → τ → Prop}
    {call : StoreCall} {f : σ → Option StoreError × σ} {y : Option StoreError × τ}
    {r : Recorder σ} (hr : r.InRange)
    (h : call.InRange → Agree rel R (f r.store) y) :
    (bond rel saved).Answers (fun r t => r.InRange ∧ R r.store t) (record call f r) y := by
  by_cases hcall : call.InRange
  · have hin : (record call f r).2.InRange := inRange_record.mpr ⟨hr, hcall⟩
    rcases h hcall with ⟨hx, hy, hR⟩ | ⟨hx, hy, hrel⟩
    · exact Or.inl ⟨hx, hy, hin, hR⟩
    · exact Or.inr (Or.inl ⟨hx, hy, hin, hrel⟩)
  · exact Or.inr (Or.inr (Or.inl fun hin => hcall (inRange_record.mp hin).2))

/-- The same, when the second store may fail as well and is then not looked at any more. -/
def looseBond (rel : σ → τ → Prop) (saved : Snapshot → σ → τ → Prop) : Bond (Recorder σ) τ :=
  { bond rel saved with loose := True }

/-- A call in range that the other store does is done. -/
theorem answers_loose {rel : σ → τ → Prop} {saved : Snapshot → σ → τ → Prop} {R : σ → τ → Prop}
    {call : StoreCall} {f : σ → Option StoreError × σ} {y : Option StoreError × τ}
    {r : Recorder σ} (hr : r.InRange)
    (h : call.InRange → y.1 = none → (f r.store).1 = none ∧ R (f r.store).2 y.2) :
    (looseBond rel saved).Answers (fun r t => r.InRange ∧ R r.store t) (record call f r) y := by
  by_cases hcall : call.InRange
  · by_cases hy : y.1 = none
    · obtain ⟨hx, hR⟩ := h hcall hy
      exact Or.inl ⟨hx, hy, inRange_record.mpr ⟨hr, hcall⟩, hR⟩
    · exact Or.inr (Or.inr (Or.inr ⟨trivial, hy⟩))
  · exact Or.inr (Or.inr (Or.inl fun hin => hcall (inRange_record.mp hin).2))

/-- A recorded call has the answer of the call. -/
theorem record_answers {B : Bond σ (Recorder σ)} {R : σ → Recorder σ → Prop} {call : StoreCall}
    {f : σ → Option StoreError × σ} {r : Recorder σ}
    (hrel : ∀ (s : σ) (r : Recorder σ), r.store = s → B.rel s r ∧ R s r) :
    B.Answers R (f r.store) (record call f r) := by
  have hsame := hrel _ (record call f r).2 rfl
  cases hf : (f r.store).1 with
  | none => exact Or.inl ⟨hf, hf, hsame.2⟩
  | some e => exact Or.inr (Or.inl ⟨by simp [hf], by simp [record, hf], hsame.1⟩)

/-- Opening keeps the calls. -/
theorem reopen_eq_some [OpenStore σ] {r r' : Recorder σ} {recovery : Recovery} :
    OpenStore.reopen r = some (r', recovery) ↔
      OpenStore.reopen r.store = some (r'.store, recovery) ∧ r'.calls = r.calls := by
  obtain ⟨store', calls'⟩ := r'
  show Option.map _ (OpenStore.reopen r.store) = _ ↔ _
  rw [Option.map_eq_some_iff]
  constructor
  · rintro ⟨⟨store, recovery⟩, hopen, ⟨⟩⟩
    exact ⟨hopen, rfl⟩
  · rintro ⟨hopen, rfl⟩
    exact ⟨_, hopen, rfl⟩

theorem lost_reopen [OpenStore σ] {rel : σ → τ → Prop} {saved : Snapshot → σ → τ → Prop}
    (r r' : Recorder σ) (recovery : Recovery) (h : (bond rel saved).lost r)
    (hopen : OpenStore.reopen r = some (r', recovery)) : (bond rel saved).lost r' := by
  obtain ⟨_, hcalls⟩ := reopen_eq_some.mp hopen
  intro hin
  refine h ?_
  unfold InRange at hin ⊢
  rwa [hcalls] at hin

end Recorder

/-! ## The calls of one operation -/

section Calls

variable [StableStore σ]

/-- A recorder answers as its store does. -/
def Recorder.beside : Link σ (Recorder σ) where
  rel s r := r.store = s
  saved _ s r := r.store = s
  lost _ := False
  loose := False
  saveHardState hard s r h := by
    subst h
    exact Recorder.record_answers fun _ _ h => ⟨h, h⟩
  append index entry s r h := by
    subst h
    exact Recorder.record_answers fun _ _ h => ⟨h, h⟩
  snapshots := by
    show Bond.Snapshots _ StableStore.snapshots (StableStore.snapshots.map _)
    cases StableStore.snapshots (σ := σ) with
    | none => trivial
    | some store =>
      refine ⟨fun snapshot s r h => ?_, fun snapshot s r h => ?_, fun _ _ => id, fun _ _ => id⟩
      · subst h
        exact Recorder.record_answers fun _ _ h => ⟨h, h⟩
      · subst h
        exact Recorder.record_answers fun _ _ h => ⟨h, h⟩
  lost_saveHardState _ _ := id
  lost_append _ _ _ := id

/-- The store calls that an operation of a node makes. -/
def Node.callsOf (s : Node σ) (op : Op) : List (StoreCall × Bool) :=
  (finalState (op.exec (s.over ({ store := s.store } : Recorder σ) s.storageErr))).store.calls

/-- The operation over the recorder. -/
theorem exec_recorded [Inhabited σ] {s s' : Node σ} {op : Op} {out : Output}
    (hexec : op.exec s = .ok out s') :
    ∃ err, op.exec (s.over ({ store := s.store } : Recorder σ) s.storageErr) =
      .ok out (s'.over ⟨s'.store, s.callsOf op⟩ err) := by
  have hends := (linked_exec (L := Recorder.beside (σ := σ)) op).ends s
    (s.over { store := s.store } s.storageErr) ⟨rfl, rfl⟩
  unfold Node.callsOf
  rw [hexec] at hends
  cases hrec : op.exec (s.over ({ store := s.store } : Recorder σ) s.storageErr) with
  | ok out' t =>
    rw [hrec] at hends
    rcases hends with ⟨rfl, hst⟩ | hgone | ⟨hloose, _⟩
    · obtain ⟨r, err, rfl, hrel⟩ := hst.eq_over
      exact ⟨err, by rw [← hrel]; rfl⟩
    · exact hgone.elim
    · exact hloose.elim
  | error e t =>
    rw [hrec] at hends
    rcases hends with hgone | ⟨hloose, _⟩
    · exact hgone.elim
    · exact hloose.elim

end Calls

/-- Every store call of the cluster so far was in range. -/
def Cluster.InRange (c : Cluster (Recorder σ)) : Prop :=
  ∀ id s, (c.procs id).node? = some s → s.store.InRange

end Promtact.Raft
