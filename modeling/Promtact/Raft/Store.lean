import Promtact.Raft.Recover

/-!
# Raft: what a store promises

`Durable` is what a store holds when the process is gone: the hard state, the log
from its base on, and the latest snapshot. `LawfulStore` says what a call may do
to it: a call that returns no error has taken effect, a call that returns an
error has taken effect or not, and nothing in between. A crash inside an
operation is a call that fails before it takes effect, since a node that failed
once never writes again.

The snapshot and the log are separate files, so that a snapshot may be ahead of
the base of the log; opening the store brings the log up to it (`Durable.settle`).
As in `raftstore`, compaction at a snapshot keeps the suffix only when the log
holds the snapshot's last entry, and a snapshot never goes back.
-/

namespace Promtact.Raft

structure Durable where
  hard : HardState := {}
  base : Nat := 0
  /-- The log from the base on; the first entry carries the base's term. -/
  data : List Entry := [{}]
  snapshot : Snapshot := {}
  deriving DecidableEq

namespace Durable

def lastIndex (d : Durable) : Nat := d.base + d.data.length - 1

def term (d : Durable) (index : Nat) : Option Nat :=
  if index < d.base ∨ index > d.lastIndex then none
  else (d.data[index - d.base]?).map (·.term)

def saveHardState (d : Durable) (hard : HardState) : Durable := { d with hard := hard }

/-- Storing at an index replaces everything from that index on. -/
def append (d : Durable) (index : Nat) (entry : Entry) : Durable :=
  { d with data := d.data.take (index - d.base) ++ [entry] }

def saveSnapshot (d : Durable) (snapshot : Snapshot) : Durable := { d with snapshot := snapshot }

/-- The log is cut at the snapshot. What follows stays when the log holds the
snapshot's last entry. -/
def fence (d : Durable) : Durable :=
  { d with
    base := d.snapshot.lastIndex
    data :=
      if d.term d.snapshot.lastIndex = some d.snapshot.lastTerm then
        d.data.drop (d.snapshot.lastIndex - d.base)
      else [{ term := d.snapshot.lastTerm }] }

/-- A snapshot that is ahead of the log is fenced when the store is opened. -/
def settle (d : Durable) : Durable := if d.snapshot.lastIndex > d.base then d.fence else d

end Durable

/-- What opening a store returns. -/
structure Recovery where
  hard : HardState
  snapshot : Snapshot
  suffix : List Entry

def Durable.recovery (d : Durable) : Recovery := ⟨d.hard, d.snapshot, d.data.tail⟩

/-- The call is all or nothing, and all when it returns no error. -/
def Atomic {σ : Type} (durable : σ → Durable) (call : σ → Option StoreError × σ) (s : σ)
    (d : Durable) : Prop :=
  ((call s).1 = none → durable (call s).2 = d) ∧
    (durable (call s).2 = durable s ∨ durable (call s).2 = d)

/-- A store that can be opened again after a crash. -/
class OpenStore (σ : Type) extends StableStore σ where
  /-- Opening the store, when that succeeds. -/
  reopen : σ → Option (σ × Recovery)

/-- A store whose calls are atomic, and durable when they return no error. -/
class LawfulStore (σ : Type) extends OpenStore σ where
  durable : σ → Durable
  saveHardState_atomic : ∀ hard s,
    Atomic durable (saveHardState hard) s ((durable s).saveHardState hard)
  append_atomic : ∀ index entry s, (durable s).base < index →
    index ≤ (durable s).lastIndex + 1 →
    Atomic durable (append index entry) s ((durable s).append index entry)
  saveSnapshot_atomic : ∀ store, snapshots = some store → ∀ snapshot s,
    Atomic durable (store.saveSnapshot snapshot) s ((durable s).saveSnapshot snapshot)
  /-- A snapshot is never replaced by an older one. This is more than atomicity. Only a
  `Compact` on a node that a store error has stopped makes such a call, and `snapshot.Store`
  refuses it only if the `Save` of the newer snapshot returned nil, as it notes the index
  after the directory is synced. -/
  saveSnapshot_refuses : ∀ store, snapshots = some store → ∀ snapshot s,
    snapshot.lastIndex < (durable s).snapshot.lastIndex →
    (store.saveSnapshot snapshot s).1 ≠ none ∧
      durable (store.saveSnapshot snapshot s).2 = durable s
  compactLog_atomic : ∀ store, snapshots = some store → ∀ s,
    (durable s).base ≤ (durable s).snapshot.lastIndex →
    Atomic durable (store.compactLog (durable s).snapshot.lastIndex) s (durable s).fence
  reopen_settles : ∀ s s' recovery, reopen s = some (s', recovery) →
    durable s' = (durable s).settle ∧ recovery = (durable s').recovery

/-- A hard state that may follow another. -/
def HardState.Follows (new old : HardState) : Prop :=
  old.term ≤ new.term ∧ old.commit ≤ new.commit ∧
    (new.term = old.term → old.votedFor = 0 ∨ new.votedFor = old.votedFor)

/-- A store that never fails a call that makes sense. A store that is only `snug`
compacts at a snapshot whose last entry its log holds. -/
structure Reliable (σ : Type) [LawfulStore σ] (snug : Prop) : Prop where
  saveHardState : ∀ (hard : HardState) (s : σ), hard.Follows (LawfulStore.durable s).hard →
    (StableStore.saveHardState hard s).1 = none
  append : ∀ (index : Nat) (entry : Entry) (s : σ), (LawfulStore.durable s).base < index →
    index ≤ (LawfulStore.durable s).lastIndex + 1 → (StableStore.append index entry s).1 = none
  snapshots : ∃ store, StableStore.snapshots (σ := σ) = some store ∧
    (∀ (snapshot : Snapshot) (s : σ),
      (LawfulStore.durable s).snapshot.lastIndex < snapshot.lastIndex →
      (LawfulStore.durable s).base < snapshot.lastIndex →
      (store.saveSnapshot snapshot s).1 = none) ∧
    (∀ s : σ, (LawfulStore.durable s).base < (LawfulStore.durable s).snapshot.lastIndex →
      (snug → (LawfulStore.durable s).term (LawfulStore.durable s).snapshot.lastIndex =
        some (LawfulStore.durable s).snapshot.lastTerm) →
      (store.compactLog (LawfulStore.durable s).snapshot.lastIndex s).1 = none)

/-! ## The calls of a node -/

section Calls

variable {σ : Type} {s : Node σ}

/-- A node after a store error. -/
def failed (s : Node σ) (store : σ) (err : StoreError) : Node σ :=
  { s with
    store := store
    storageErr := some err
    faulted := true
    state := .follower
    leader := 0
    outbound := [] }

theorem tryStore_eq (call : σ → Option StoreError × σ) (s : Node σ) : tryStore call s =
    (match (call s.store).1 with
      | none => pure true
      | some err => do failStorageWith err; pure false : NodeM σ Bool)
      { s with store := (call s.store).2 } := rfl

theorem tryStore_ok {call : σ → Option StoreError × σ} (hc : (call s.store).1 = none) :
    tryStore call s = .ok true { s with store := (call s.store).2 } := by
  rw [tryStore_eq, hc]
  rfl

theorem tryStore_error {call : σ → Option StoreError × σ} {err : StoreError}
    (hc : (call s.store).1 = some err) :
    tryStore call s = .ok false (failed s (call s.store).2 err) := by
  rw [tryStore_eq, hc]
  rfl

end Calls

/-! ## A store with faults -/

/-- How a store call ends: without an error, with an error and no effect, or with
an error although it took effect. -/
inductive Outcome
  | done | lost | kept
  deriving DecidableEq, Repr

/-- A store that fails as its script says, and never again after the script. -/
structure Disk where
  content : Durable := {}
  script : List Outcome := []

namespace Disk

def errDisk : StoreError := "disk: call failed"

def errRegression : StoreError := "snapshot: index regression"

def call (effect : Durable → Durable) (s : Disk) : Option StoreError × Disk :=
  match s.script with
  | [] => (none, { s with content := effect s.content })
  | .done :: rest => (none, ⟨effect s.content, rest⟩)
  | .lost :: rest => (some errDisk, ⟨s.content, rest⟩)
  | .kept :: rest => (some errDisk, ⟨effect s.content, rest⟩)

def saveSnapshot (snapshot : Snapshot) (s : Disk) : Option StoreError × Disk :=
  if snapshot.lastIndex < s.content.snapshot.lastIndex then (some errRegression, s)
  else call (·.saveSnapshot snapshot) s

theorem call_atomic (effect : Durable → Durable) (s : Disk) :
    Atomic content (call effect) s (effect s.content) := by
  obtain ⟨content, script⟩ := s
  match script with
  | [] => exact ⟨fun _ => rfl, Or.inr rfl⟩
  | .done :: _ => exact ⟨fun _ => rfl, Or.inr rfl⟩
  | .lost :: _ => exact ⟨(nomatch ·), Or.inl rfl⟩
  | .kept :: _ => exact ⟨(nomatch ·), Or.inr rfl⟩

theorem snapshot_atomic (snapshot : Snapshot) (s : Disk) :
    Atomic content (saveSnapshot snapshot) s (s.content.saveSnapshot snapshot) := by
  unfold Atomic saveSnapshot
  split
  · exact ⟨(nomatch ·), Or.inl rfl⟩
  · exact call_atomic _ s

instance : LawfulStore Disk where
  saveHardState hard := call (·.saveHardState hard)
  append index entry := call (·.append index entry)
  snapshots := some {
    saveSnapshot := saveSnapshot
    compactLog := fun _ => call (·.fence) }
  durable := content
  reopen s := some ({ s with content := s.content.settle }, s.content.settle.recovery)
  saveHardState_atomic _ := call_atomic _
  append_atomic _ _ s _ _ := call_atomic _ s
  saveSnapshot_atomic := by
    rintro _ ⟨⟩ snapshot s
    exact snapshot_atomic snapshot s
  saveSnapshot_refuses := by
    rintro _ ⟨⟩ snapshot s hlt
    simp [saveSnapshot, hlt]
  compactLog_atomic := by
    rintro _ ⟨⟩ s _
    exact call_atomic _ s
  reopen_settles := by
    rintro s _ _ ⟨⟩
    exact ⟨rfl, rfl⟩

end Disk

end Promtact.Raft
