import Promtact.Raft.Store

/-!
# Raft: a store that never fails

`Ledger` is what `raftstore` is for, without files: it holds the durable contents
and refuses exactly the calls that `raftstore` refuses. A hard state must follow
the one at hand, an entry must be next to the log, a snapshot must not go back,
and a compaction must be one at the snapshot. A call that makes sense is done
(`Ledger.reliable`).

A strict ledger also refuses to compact at a snapshot whose last entry is not in
its log, where `raftstore` starts an empty log behind the snapshot.
-/

namespace Promtact.Raft

structure Ledger (strict : Bool) where
  content : Durable := {}
  deriving DecidableEq

instance {strict : Bool} : Inhabited (Ledger strict) := ⟨{}⟩

instance (new old : HardState) : Decidable (new.Follows old) :=
  inferInstanceAs (Decidable (_ ∧ _ ∧ (_ → _)))

namespace Ledger

variable {strict : Bool}

def errRefused : StoreError := "store: call refused"

def call (refuse : Durable → Bool) (effect : Durable → Durable) (s : Ledger strict) :
    Option StoreError × Ledger strict :=
  if refuse s.content then (some errRefused, s) else (none, ⟨effect s.content⟩)

def refusesAppend (index : Nat) (d : Durable) : Bool := index ≤ d.base || index > d.lastIndex + 1

def refusesCompaction (strict : Bool) (index : Nat) (d : Durable) : Bool :=
  index ≠ d.snapshot.lastIndex || index < d.base ||
    (index = d.base && d.term index = some d.snapshot.lastTerm) ||
    (strict && d.term index ≠ some d.snapshot.lastTerm)

/-- Opening refuses a log that starts behind its snapshot, and a snapshot that lies
behind the log. -/
def refusesOpen (d : Durable) : Bool :=
  d.snapshot.lastIndex < d.base || (d.base < d.snapshot.lastIndex && d.lastIndex < d.snapshot.lastIndex)

/-- A store whose log starts at its snapshot opens as it is. -/
theorem settled {d : Durable} (hd : d.base = d.snapshot.lastIndex) :
    refusesOpen d = false ∧ d.settle = d := by
  refine ⟨by simp [refusesOpen, hd], if_neg ?_⟩
  omega

theorem call_atomic (refuse : Durable → Bool) (effect : Durable → Durable) (s : Ledger strict) :
    Atomic content (call refuse effect) s (effect s.content) := by
  unfold Atomic call
  split
  · exact ⟨(nomatch ·), Or.inl rfl⟩
  · exact ⟨fun _ => rfl, Or.inr rfl⟩

instance : LawfulStore (Ledger strict) where
  saveHardState hard := call (fun d => !decide (hard.Follows d.hard)) (·.saveHardState hard)
  append index entry := call (refusesAppend index) (·.append index entry)
  snapshots := some {
    saveSnapshot := fun snapshot =>
      call (snapshot.lastIndex < ·.snapshot.lastIndex) (·.saveSnapshot snapshot)
    compactLog := fun index => call (refusesCompaction strict index) (·.fence) }
  reopen s :=
    if refusesOpen s.content then none else some (⟨s.content.settle⟩, s.content.settle.recovery)
  durable := content
  saveHardState_atomic _ := call_atomic _ _
  append_atomic _ _ s _ _ := call_atomic _ _ s
  saveSnapshot_atomic := by
    rintro _ ⟨⟩ snapshot s
    exact call_atomic _ _ s
  saveSnapshot_refuses := by
    rintro _ ⟨⟩ snapshot s hlt
    simp [call, hlt]
  compactLog_atomic := by
    rintro _ ⟨⟩ s _
    exact call_atomic _ _ s
  reopen_settles := by
    intro s s' recovery hopen
    split at hopen
    · cases hopen
    · cases hopen
      exact ⟨rfl, rfl⟩

theorem call_ok {refuse : Durable → Bool} {effect : Durable → Durable} {s : Ledger strict}
    (hok : refuse s.content = false) : (call refuse effect s).1 = none := by
  unfold call
  rw [hok]
  rfl

/-- A call that makes sense is done. -/
theorem reliable : Reliable (Ledger strict) (strict = true) where
  saveHardState hard s hfollows := by
    change hard.Follows s.content.hard at hfollows
    exact call_ok (by simp [hfollows])
  append index entry s hlo hhi := by
    refine call_ok ?_
    simp only [refusesAppend, Bool.or_eq_false_iff, decide_eq_false_iff_not]
    change s.content.base < index at hlo
    change index ≤ s.content.lastIndex + 1 at hhi
    omega
  snapshots := by
    refine ⟨_, rfl, fun snapshot s hlt _ => call_ok ?_, fun s hlt hheld => call_ok ?_⟩
    · change s.content.snapshot.lastIndex < snapshot.lastIndex at hlt
      simp only [decide_eq_false_iff_not]
      omega
    · change s.content.base < s.content.snapshot.lastIndex at hlt
      change strict = true → s.content.term s.content.snapshot.lastIndex =
        some s.content.snapshot.lastTerm at hheld
      have hbase : s.content.snapshot.lastIndex ≠ s.content.base := by omega
      have hle : ¬ s.content.snapshot.lastIndex < s.content.base := by omega
      cases strict with
      | false => simp [refusesCompaction, LawfulStore.durable, hbase, hle]
      | true => simp [refusesCompaction, LawfulStore.durable, hbase, hle, hheld rfl]

end Ledger

end Promtact.Raft
