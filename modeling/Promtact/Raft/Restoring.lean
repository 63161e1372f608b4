import Promtact.Raft.Process

/-!
# What a restart accepts

Recovery folds the entries behind the base, one after the other, and stops at the first one
that does not fit. `foldEntries` is that fold without the node around it: the loop of
`restoreConfigurationState` computes it and only adds peers (`restoreLoop_eq`). So a node is
rebuilt faulted exactly when its recovery is not `Usable` (`recover_faulted`).
-/

namespace Promtact.Raft

open GhostState (bind_of_ok)
open Node (indexes)

variable {σ : Type} {s s' : Node σ}

/-! ## The fold -/

theorem run_ask {α : Type} {q : Node σ → Except Panic α} {a : α} (hq : q s = .ok a) :
    ask q s = .ok a s := by
  unfold ask
  rw [hq]

theorem run_ask_error {α : Type} {q : Node σ → Except Panic α} {e : Panic} (hq : q s = .error e) :
    ask q s = .error e s := by
  unfold ask
  rw [hq]

/-- The fold over the entries behind the index `k`. -/
def foldEntries (commit : Nat) : Nat → Folded → List Entry → Option Folded
  | _, f, [] => some f
  | k, f, entry :: entries =>
    (foldEntry commit (k + 1) f entry).bind fun f => foldEntries commit (k + 1) f entries

theorem foldEntries_append (commit k : Nat) (f : Folded) (front back : List Entry) :
    foldEntries commit k f (front ++ back) =
      (foldEntries commit k f front).bind fun f => foldEntries commit (k + front.length) f back := by
  induction front generalizing k f with
  | nil => rfl
  | cons entry front ih =>
    simp only [List.cons_append, foldEntries]
    cases foldEntry commit (k + 1) f entry with
    | none => rfl
    | some f' =>
      rw [Option.bind_some, Option.bind_some, ih, List.length_cons,
        show k + 1 + front.length = k + (front.length + 1) by omega]

/-- The node has other peers, and knows nothing about them. -/
def Meets (s s' : Node σ) : Prop :=
  ∃ peers next matchIndex, s' = { s with peers := peers, next := next, matchIndex := matchIndex }

theorem Meets.refl (s : Node σ) : Meets s s := ⟨_, _, _, rfl⟩

theorem Meets.trans {s'' : Node σ} (h : Meets s s') (h' : Meets s' s'') : Meets s s'' := by
  obtain ⟨_, _, _, rfl⟩ := h
  obtain ⟨peers, next, matchIndex, rfl⟩ := h'
  exact ⟨peers, next, matchIndex, rfl⟩

theorem Meets.ensurePeers (mask : Word) (s : Node σ) : Meets s (s.ensurePeers mask) :=
  ensurePeers_eq mask s

/-- The entry in front of what is left of the log. -/
theorem entryAt_of_drop {k : Nat} {e : Entry} {entries : List Entry} (hk : s.baseIndex ≤ k)
    (hdrop : s.log.drop (k - s.baseIndex) = e :: entries) : s.entryAt k = .ok e := by
  have hat : s.log[k - s.baseIndex]? = some e := by
    rw [← List.head?_drop, hdrop]
    rfl
  have hlen := (List.getElem?_eq_some_iff.mp hat).1
  refine entryAt_eq_ok.mpr ?_
  unfold Node.entryAt? Node.offset Node.lastIndex
  rw [if_neg (by omega)]
  exact hat

theorem restoreLoop_cons {index : Nat} {rest : List Nat} {f : Folded} {e : Entry}
    (hat : s.entryAt index = .ok e) : restoreLoop (index :: rest) f s =
      (match foldEntry s.commit index f e with
        | none => return none
        | some f => do
          modify (Node.ensurePeers (e.oldVoters ||| e.newVoters))
          restoreLoop rest f : NodeM σ (Option Folded)) s :=
  bind_of_ok (run_ask hat)

theorem restoreLoop_eq {k : Nat} {f : Folded} {entries : List Entry} (hk : s.baseIndex ≤ k)
    (hdrop : s.log.drop (k + 1 - s.baseIndex) = entries) : ∃ s', Meets s s' ∧
    restoreLoop (List.range' (k + 1) entries.length) f s =
      .ok (foldEntries s.commit k f entries) s' := by
  induction entries generalizing k f s with
  | nil => exact ⟨s, Meets.refl s, rfl⟩
  | cons e entries ih =>
    have hat : s.entryAt (k + 1) = .ok e := entryAt_of_drop (by omega) hdrop
    rw [List.length_cons, List.range'_succ]
    rw [restoreLoop_cons hat]
    cases hfold : foldEntry s.commit (k + 1) f e with
    | none => exact ⟨s, Meets.refl s, by simp only [foldEntries, hfold]; rfl⟩
    | some f' =>
      obtain ⟨peers, next, matchIndex, hmeets⟩ := ensurePeers_eq (e.oldVoters ||| e.newVoters) s
      have hdrop' : s.log.drop (k + 1 + 1 - s.baseIndex) = entries := by
        rw [show k + 1 + 1 - s.baseIndex = k + 1 - s.baseIndex + 1 by omega, ← List.drop_drop, hdrop]
        rfl
      obtain ⟨s', hs', hrest⟩ := ih (s := { s with
        peers := peers, next := next, matchIndex := matchIndex }) (k := k + 1) (f := f')
        (Nat.le_succ_of_le hk) hdrop'
      refine ⟨s', Meets.trans ⟨_, _, _, rfl⟩ hs', ?_⟩
      show restoreLoop (List.range' (k + 1 + 1) entries.length) f'
        (s.ensurePeers (e.oldVoters ||| e.newVoters)) = _
      rw [hmeets, hrest]
      simp only [foldEntries, hfold, Option.bind_some]

/-- The fold over the log of a node. -/
def Node.folds (s : Node σ) : Option Folded :=
  foldEntries s.commit s.baseIndex ⟨s.votersOld, s.votersNew, 0⟩ s.log.tail

theorem restoreConfigurationState_eq (hlog : s.log ≠ []) : ∃ s', Meets s s' ∧
    restoreConfigurationState s = match s.folds with
      | none => .ok false s'
      | some f => .ok true { s' with votersOld := f.old, votersNew := f.new, pendingConfig := f.pending } := by
  have hdrop : s.log.drop (s.baseIndex + 1 - s.baseIndex) = s.log.tail := by
    rw [Nat.add_sub_cancel_left, List.drop_one]
  obtain ⟨s', hs', hrun⟩ := restoreLoop_eq (f := ⟨s.votersOld, s.votersNew, 0⟩) (Nat.le_refl _) hdrop
  refine ⟨s', hs', ?_⟩
  have hindexes : indexes (s.baseIndex + 1) s.lastIndex =
      List.range' (s.baseIndex + 1) s.log.tail.length := by
    have := List.length_pos_iff.mpr hlog
    unfold indexes Node.lastIndex
    rw [List.length_tail]
    congr 1
    omega
  rw [← hindexes] at hrun
  refine (bind_of_ok hrun).trans ?_
  unfold Node.folds
  cases foldEntries s.commit s.baseIndex ⟨s.votersOld, s.votersNew, 0⟩ s.log.tail <;> rfl

/-! ## Recovery -/

/-- A restart leaves the log and the indexes alone. -/
theorem restore_same (hlog : s.log ≠ []) (h : restore s = .ok () s') :
    s'.log = s.log ∧ s'.baseIndex = s.baseIndex ∧ s'.commit = s.commit ∧ s'.applied = s.applied := by
  replace h : (if s.commit > s.lastIndex then failStorage else do
    if !(← restoreConfigurationState) then failStorage : NodeM σ Unit) s = .ok () s' := h
  split at h
  · cases h
    exact ⟨rfl, rfl, rfl, rfl⟩
  · obtain ⟨s₁, ⟨peers, next, matchIndex, rfl⟩, hrun⟩ := restoreConfigurationState_eq hlog
    cases hfolds : s.folds with
    | none =>
      rw [hfolds] at hrun
      rw [bind_of_ok hrun] at h
      cases h
      exact ⟨rfl, rfl, rfl, rfl⟩
    | some f =>
      rw [hfolds] at hrun
      rw [bind_of_ok hrun] at h
      cases h
      exact ⟨rfl, rfl, rfl, rfl⟩

theorem restore_faulted (hlog : s.log ≠ []) (hrunning : s.faulted = false) (h : restore s = .ok () s') :
    s'.faulted = false ↔ s.commit ≤ s.lastIndex ∧ s.folds ≠ none := by
  replace h : (if s.commit > s.lastIndex then failStorage else do
    if !(← restoreConfigurationState) then failStorage : NodeM σ Unit) s = .ok () s' := h
  by_cases hcommit : s.commit > s.lastIndex
  · rw [if_pos hcommit] at h
    cases h
    exact ⟨(nomatch ·), fun hno => absurd hno.1 (Nat.not_le.mpr hcommit)⟩
  · rw [if_neg hcommit] at h
    obtain ⟨s₁, ⟨peers, next, matchIndex, rfl⟩, hrun⟩ := restoreConfigurationState_eq hlog
    cases hfolds : s.folds with
    | none =>
      rw [hfolds] at hrun
      rw [bind_of_ok hrun] at h
      cases h
      exact ⟨(nomatch ·), fun hno => absurd rfl hno.2⟩
    | some f =>
      rw [hfolds] at hrun
      rw [bind_of_ok hrun] at h
      cases h
      exact ⟨fun _ => ⟨Nat.le_of_not_lt hcommit, Option.some_ne_none f⟩, fun _ => hrunning⟩

/-- A snapshot without voters is refused. Otherwise the suffix is folded behind it. -/
theorem restoreSnapshot_cases {hard : HardState} {snapshot : Snapshot} {suffix : List Entry}
    (h : restoreSnapshot hard snapshot suffix s = .ok () s') :
    (snapshot.oldVoters = 0 ∧ s'.faulted = true ∧ s'.commit = s.commit ∧ s'.applied = s.applied) ∨
    snapshot.oldVoters ≠ 0 ∧ ∃ t : Node σ,
      t.log = { term := snapshot.lastTerm } :: suffix ∧ t.baseIndex = snapshot.lastIndex ∧
      t.commit = max hard.commit snapshot.lastIndex ∧ t.applied = snapshot.lastIndex ∧
      t.votersOld = snapshot.oldVoters ∧ t.votersNew = snapshot.newVoters ∧
      t.faulted = s.faulted ∧ restore t = .ok () s' := by
  obtain ⟨n, hn⟩ : ∃ n, n = { s with
      term := hard.term, votedFor := hard.votedFor, baseIndex := snapshot.lastIndex
      baseTerm := snapshot.lastTerm, snapshot := snapshot
      votersOld := snapshot.oldVoters, votersNew := snapshot.newVoters } := ⟨_, rfl⟩
  replace h : (if snapshot.oldVoters = 0 then failStorage else do
      modify (Node.ensurePeers (snapshot.oldVoters ||| snapshot.newVoters))
      modify fun n => { n with
        log := { term := snapshot.lastTerm } :: suffix
        commit := max hard.commit snapshot.lastIndex
        applied := snapshot.lastIndex }
      restore : NodeM σ Unit) n = .ok () s' := by
    rw [hn]
    exact h
  by_cases hold : snapshot.oldVoters = 0
  · rw [if_pos hold] at h
    cases h
    exact Or.inl ⟨hold, rfl, by rw [hn], by rw [hn]⟩
  · rw [if_neg hold] at h
    have hmeets := Meets.ensurePeers (snapshot.oldVoters ||| snapshot.newVoters) n
    replace h : restore { (n.ensurePeers (snapshot.oldVoters ||| snapshot.newVoters)) with
        log := { term := snapshot.lastTerm } :: suffix
        commit := max hard.commit snapshot.lastIndex
        applied := snapshot.lastIndex } = .ok () s' := h
    generalize n.ensurePeers _ = t at hmeets h
    obtain ⟨_, _, _, rfl⟩ := hmeets
    refine Or.inr ⟨hold, _, rfl, ?_, rfl, rfl, ?_, ?_, ?_, h⟩ <;> rw [hn]

/-- A restart with the configured voters accepts what the store returned: the commit index is
inside the log, a snapshot names voters, and the log behind it fits them. -/
def Recovery.Usable (recovery : Recovery) (voters : Word) : Prop :=
  if recovery.snapshot.lastIndex ≠ 0 then
    recovery.snapshot.oldVoters ≠ 0 ∧
    recovery.hard.commit ≤ recovery.snapshot.lastIndex + recovery.suffix.length ∧
    foldEntries (max recovery.hard.commit recovery.snapshot.lastIndex) recovery.snapshot.lastIndex
      ⟨recovery.snapshot.oldVoters, recovery.snapshot.newVoters, 0⟩ recovery.suffix ≠ none
  else
    recovery.hard.commit ≤ recovery.suffix.length ∧
    foldEntries recovery.hard.commit 0 ⟨voters, 0, 0⟩ recovery.suffix ≠ none

instance (recovery : Recovery) (voters : Word) : Decidable (recovery.Usable voters) := by
  unfold Recovery.Usable
  infer_instance

variable {id timeout : Nat} {peers : List Nat} {store : σ} {voters : Word} {recovery : Recovery}

theorem Recovery.Usable.commit_le (h : recovery.Usable voters) :
    recovery.hard.commit ≤ recovery.snapshot.lastIndex + recovery.suffix.length := by
  unfold Recovery.Usable at h
  split at h <;> omega

/-- Recovery signals what it refuses by a flag on the node, and by nothing else. -/
theorem recover_faulted (hvoters : initialVoters id peers = .ok voters)
    (h : recover id peers timeout store recovery = .ok s) :
    s.faulted = false ↔ recovery.Usable voters := by
  unfold recover at h
  unfold Recovery.Usable
  split at h
  · rename_i hsnap
    rw [if_pos hsnap]
    obtain ⟨n, hn, h⟩ := bind_eq_ok.mp h
    obtain ⟨voters', _, rfl⟩ := newNodeWithStore_cases hn
    rcases restoreSnapshot_cases (built_eq_ok h) with ⟨hold, hfaulted, _⟩ |
      ⟨hold, t, hlog, hbase, hcommit, _, hvold, hvnew, hrunning, hrun⟩
    · simp [hold, hfaulted]
    · rw [restore_faulted (by rw [hlog]; exact List.cons_ne_nil _ _) hrunning hrun]
      simp only [Node.lastIndex, Node.folds, hlog, hbase, hcommit, hvold, hvnew, List.length_cons,
        List.tail_cons, hold, ne_eq, not_false_eq_true, true_and, Nat.max_le]
      refine and_congr_left fun _ => ?_
      omega
  · rename_i hsnap
    rw [if_neg hsnap]
    obtain ⟨n, hn, h⟩ := bind_eq_ok.mp h
    obtain ⟨voters', hvoters', rfl⟩ := newNodeWithStore_cases hn
    rw [hvoters] at hvoters'
    cases hvoters'
    rw [if_neg (List.cons_ne_nil _ _)] at h
    rw [restore_faulted (List.cons_ne_nil _ _) rfl (built_eq_ok h)]
    simp only [Node.lastIndex, Node.folds, List.length_cons, List.tail_cons, Nat.zero_add,
      Nat.add_sub_cancel]

/-- What a node is rebuilt with: nothing, when the snapshot names no voters, and otherwise the
snapshot's index and the log behind it. -/
theorem recover_cases (h : recover id peers timeout store recovery = .ok s) :
    (recovery.snapshot.lastIndex ≠ 0 ∧ recovery.snapshot.oldVoters = 0 ∧ s.commit = 0 ∧
      s.applied = 0) ∨
    (recovery.snapshot.lastIndex ≠ 0 → recovery.snapshot.oldVoters ≠ 0) ∧
      (∃ e, s.log = e :: recovery.suffix) ∧ s.baseIndex = recovery.snapshot.lastIndex ∧
      s.commit = max recovery.hard.commit recovery.snapshot.lastIndex ∧
      s.applied = recovery.snapshot.lastIndex := by
  unfold recover at h
  split at h
  · rename_i hsnap
    obtain ⟨n, hn, h⟩ := bind_eq_ok.mp h
    obtain ⟨_, _, rfl⟩ := newNodeWithStore_cases hn
    rcases restoreSnapshot_cases (built_eq_ok h) with ⟨hold, _, hcommit, happlied⟩ |
      ⟨hold, t, hlog, hbase, hcommit, happlied, _, _, _, hrun⟩
    · exact .inl ⟨hsnap, hold, hcommit, happlied⟩
    · obtain ⟨hlog', hbase', hcommit', happlied'⟩ :=
        restore_same (by rw [hlog]; exact List.cons_ne_nil _ _) hrun
      exact .inr ⟨fun _ => hold, ⟨_, hlog'.trans hlog⟩, hbase'.trans hbase, hcommit'.trans hcommit,
        happlied'.trans happlied⟩
  · rename_i hsnap
    obtain ⟨n, hn, h⟩ := bind_eq_ok.mp h
    obtain ⟨_, _, rfl⟩ := newNodeWithStore_cases hn
    rw [if_neg (List.cons_ne_nil _ _)] at h
    obtain ⟨hlog, hbase, hcommit, happlied⟩ := restore_same (List.cons_ne_nil _ _) (built_eq_ok h)
    rw [not_not.mp hsnap, Nat.max_zero]
    exact .inr ⟨fun hno => absurd rfl hno, ⟨_, hlog⟩, hbase, hcommit, happlied⟩

end Promtact.Raft
