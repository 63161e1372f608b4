import Promtact.Raft.Validation

/-!
# A node that is to be added

The leader replicates its log to a node that is not a voter yet, one `appendAt` after the
other. A new node counts itself among its first voters, so that it never has the voters that
the joint entry names as the old ones. Whatever its store does and the messages say about the
commit index, it refuses the joint entry and everything behind it, and stays with a part of what
is in front of that entry (`joining_node_refuses`).
-/

namespace Promtact.Raft

open Node (indexes)

variable {σ : Type} {s s' : Node σ} {m : Message}

/-! ## Messages of a leader -/

/-- The message that carries the entry behind the index `i`, of a log that starts at zero. -/
def appendAt (leader id term : Nat) (log : List Entry) (i commit : Nat) (context : Word) : Message :=
  { type := .append, fromID := leader, toID := id, term := term
    logIndex := i, logTerm := (log.getD i {}).term, commit := commit, context := context
    entry := log.getD (i + 1) {}, hasEntry := true }

theorem returns_send {Q : Unit → Node σ → Prop} (hroom : s.outbound.length ≠ outboundCapacity)
    (hq : Q ⟨⟩ { s with outbound := s.outbound ++ [m] }) : Returns (send m) Q s :=
  Along.bind (Along.of_get (Along.ite (fun h => absurd h hroom) fun _ => Along.of_ok rfl hq))

theorem entryAt?_of_base (hbase : s.baseIndex = 0) (i : Nat) : s.entryAt? i = s.log[i]? := by
  unfold Node.entryAt? Node.offset Node.lastIndex
  rw [hbase]
  split
  · rename_i hout
    exact (List.getElem?_eq_none (by omega)).symm
  · rfl

/-- A leader sends it when the entry is the next one for the node. -/
theorem appendToContext_appendAt {p i : Nat} {context : Word} (hbase : s.baseIndex = 0)
    (hnext : s.next p = i + 1) (hin : i + 1 ≤ s.lastIndex)
    (hroom : s.outbound.length ≠ outboundCapacity) :
    appendToContext p context s = .ok () { s with outbound :=
      s.outbound ++ [appendAt s.id p s.term s.log i s.commit context] } := by
  have hat : ∀ k, k ≤ i + 1 → s.entryAt? k = some (s.log.getD k {}) := fun k hk => by
    have hlen : k < s.log.length := by
      unfold Node.lastIndex at hin
      omega
    rw [entryAt?_of_base hbase, List.getD_eq_getElem?_getD, List.getElem?_eq_getElem hlen]
    rfl
  have hterm : s.termAtMust i = .ok (s.log.getD i {}).term := by
    unfold Node.termAtMust Node.termAt
    rw [hat i (Nat.le_succ i)]
    rfl
  have hentry := entryAt_eq_ok.mpr (hat (i + 1) (Nat.le_refl _))
  have hsends : Returns (appendToContext p context) (fun _ s' => s' = { s with outbound :=
      s.outbound ++ [appendAt s.id p s.term s.log i s.commit context] }) s := by
    refine Along.bind (Along.of_get (Along.ite (fun h => absurd h (by omega)) fun _ => ?_))
    refine Along.bind (Along.of_modify ?_)
    rw [if_neg (show ¬ s.next p > s.lastIndex + 1 by omega)]
    refine Along.bind (Along.of_get ?_)
    rw [hnext, if_neg (Nat.add_one_ne_zero i)]
    refine Along.bind (returns_ask hterm (Along.ite (fun _ => ?_) fun h => absurd h (by omega)))
    exact Along.bind (returns_ask hentry (returns_send hroom rfl))
  obtain ⟨_, s', hrun, rfl⟩ := hsends.elim
  exact hrun

/-! ## Refusing the joint entry -/

/-- A message, and what is sent for it. -/
def deliver [StableStore σ] (m : Message) : NodeM σ (List Message) := do
  step m
  drain

/-- The node holds some of the entries from the first on, and its voters are those it started
with. -/
structure Short (voters : Word) (front : List Entry) (s : Node σ) : Prop where
  log : ∃ k ≤ front.length, s.log = {} :: front.take k
  base : s.baseIndex = 0
  initial : s.votersOld = voters

section Refusing

variable {leader id term commit i : Nat} {voters context : Word}
variable {front rest : List Entry} {joint : Entry}

theorem Short.of_eq (hs : Short voters front s) (hlog : s'.log = s.log)
    (hbase : s'.baseIndex = s.baseIndex) (hvoters : s'.votersOld = s.votersOld) :
    Short voters front s' where
  log := by
    rw [hlog]
    exact hs.log
  base := hbase.trans hs.base
  initial := hvoters.trans hs.initial

/-- The entry at an index of the log. -/
theorem Short.entryAt? (hs : Short voters front s) {e : Entry} (he : s.entryAt? (i + 1) = some e) :
    front[i]? = some e := by
  obtain ⟨k, _, hlog⟩ := hs.log
  rw [entryAt?_of_base hs.base, hlog, List.getElem?_cons_succ, List.getElem?_take] at he
  split at he
  · exact he
  · cases he

/-- An append that is not refused carries an entry from in front of the joint entry. -/
theorem Short.lt_of_accepted (hs : Short voters front s) (hkind : joint.kind = .jointConfig)
    (hold : joint.oldVoters ≠ voters) (h : s.rejectsAppend
      (appendAt leader id term ({} :: (front ++ joint :: rest)) i commit context) = false) :
    i < front.length := by
  have hlast : s.lastIndex ≤ front.length := by
    obtain ⟨k, hk, hlog⟩ := hs.log
    unfold Node.lastIndex
    rw [hlog, hs.base, List.length_cons, List.length_take]
    omega
  have hle : i ≤ s.lastIndex := (inLog_of_accepted h).2.1
  refine Nat.lt_of_le_of_ne (Nat.le_trans hle hlast) fun hi => ?_
  have hentry : (appendAt leader id term ({} :: (front ++ joint :: rest)) i commit context).entry =
      joint := by
    rw [hi]
    simp [appendAt]
  have hinvalid : s.validNewEntry joint = false := by
    simp [Node.validNewEntry, hkind, hs.initial, hold]
  have hend : i = s.lastIndex := by omega
  rw [Node.rejectsAppend, hentry, hinvalid] at h
  simp [appendAt, hend] at h

variable [StableStore σ]

/-- Committing entries that do not change the voters. -/
theorem along_followCommit (hs : Short voters front s) (hplain : ∀ e ∈ front, e.isConfig = false) :
    Along (fun _ => True) (followCommit m) (fun _ => Short voters front) s := by
  refine Along.bind (Along.of_get (Along.ite (fun _ => Along.of_pure hs) fun _ => ?_))
  refine Along.bind (Along.of_get (Along.bind (Along.of_tryStore (fun _ => ?_) fun err _ =>
    Along.of_pure (hs.of_eq rfl rfl rfl))))
  refine Along.bind (Along.of_modify (Along.bind (Along.bind (Along.of_get ?_))))
  refine Along.mono (Q := fun _ => Short voters front) (Along.forM (fun index hindex s' hs' => ?_)
    (hs.of_eq rfl rfl rfl)) fun _ _ hs' => Along.of_pure hs'
  have hpos : 0 < index := by
    rw [mem_indexes] at hindex
    split at hindex <;> omega
  obtain ⟨j, rfl⟩ : ∃ j, index = j + 1 := ⟨index - 1, by omega⟩
  refine Along.bind (Along.of_ask trivial fun e he => ?_)
  have hkind := hplain e (List.mem_of_getElem? (hs'.entryAt? (entryAt_eq_ok.mp he)))
  simp only [Entry.isConfig, Bool.or_eq_false_iff, decide_eq_false_iff_not] at hkind
  unfold installConfiguration
  refine Along.bind ?_
  split
  · exact absurd ‹_› hkind.1
  · exact absurd ‹_› hkind.2
  · refine Along.of_pure (Along.of_modify ?_)
    split
    · exact hs'.of_eq rfl rfl rfl
    · exact hs'

/-- What becomes of an entry in front of the joint entry. -/
theorem along_storeEntry (hs : Short voters front s) (hplain : ∀ e ∈ front, e.isConfig = false)
    (hentry : front[m.logIndex]? = some m.entry) :
    Along (fun _ => True) (storeEntry m) (fun _ => Short voters front) s := by
  have hno : ¬ s.Conflicts m := by
    rintro ⟨present, hpresent, hne⟩
    obtain ⟨e, he, rfl⟩ := Option.map_eq_some_iff.mp hpresent
    have hsame := hs.entryAt? he
    rw [hentry] at hsame
    cases hsame
    exact hne rfl
  refine Along.ite (fun _ => Along.of_pure hs) fun _ => Along.bind ?_
  refine Along.of_ok (truncateConflict_eq hno) (Along.bind (Along.of_get ?_))
  refine Along.ite (fun _ => Along.of_pure hs) fun hend => Along.bind ?_
  refine Along.of_tryStore (fun _ => ?_) fun err _ => Along.of_pure (hs.of_eq rfl rfl rfl)
  refine Along.bind (Along.of_modify (Along.ite (fun hconf => ?_) fun _ => Along.of_pure ?_))
  · rw [hplain _ (List.mem_of_getElem? hentry)] at hconf
    cases hconf
  · obtain ⟨k, hk, hlog⟩ := hs.log
    have hlt := (List.getElem?_eq_some_iff.mp hentry).1
    have hindex : m.logIndex = k := by
      unfold Node.lastIndex at hend
      rw [hlog, hs.base, List.length_cons, List.length_take] at hend
      omega
    refine ⟨⟨k + 1, by omega, ?_⟩, hs.base, hs.initial⟩
    rw [hindex] at hentry
    show s.log ++ [m.entry] = _
    rw [hlog, List.cons_append, List.take_add_one, hentry]
    rfl

/-- One message of the leader. The node stays short, and if the message carries the joint entry or
one behind it, it is refused. -/
theorem along_deliver (hs : Short voters front s) (hout : s.outbound = [])
    (hplain : ∀ e ∈ front, e.isConfig = false) (hkind : joint.kind = .jointConfig)
    (hold : joint.oldVoters ≠ voters) : Along (fun _ => True)
      (deliver (appendAt leader id term ({} :: (front ++ joint :: rest)) i commit context))
      (fun out s' => (Short voters front s' ∧ s'.outbound = []) ∧
        (front.length ≤ i → ∀ r ∈ out, r.reject = true)) s := by
  obtain ⟨m, hm⟩ : ∃ m, m =
    appendAt leader id term ({} :: (front ++ joint :: rest)) i commit context := ⟨_, rfl⟩
  rw [← hm]
  -- what is left to do is to drain
  refine Along.bind (Along.mono (Q := fun _ s' => Short voters front s' ∧
      (front.length ≤ i → ∀ r ∈ s'.outbound, r.reject = true)) ?_ fun _ s' hs' =>
    Along.of_ok rfl ⟨⟨hs'.1.of_eq rfl rfl rfl, rfl⟩, hs'.2⟩)
  have hsilent : ∀ s' : Node σ, Short voters front s' → s'.outbound = [] →
      Short voters front s' ∧ (front.length ≤ i → ∀ r ∈ s'.outbound, r.reject = true) := by
    intro s' hs' hout'
    rw [hout']
    exact ⟨hs', fun _ r hr => absurd hr List.not_mem_nil⟩
  refine Along.bind (Along.of_get (Along.ite (fun _ => Along.of_pure (hsilent s hs hout)) fun _ => ?_))
  refine Along.bind (Along.mono (Q := fun _ s' => Short voters front s' ∧ s'.outbound = []) ?_ ?_)
  · refine Along.bind (Along.of_get (Along.ite (fun _ => Along.of_pure ⟨hs, hout⟩) fun _ => ?_))
    refine Along.bind (Along.of_tryStore (fun _ => ?_) fun err _ =>
      Along.of_pure ⟨hs.of_eq rfl rfl rfl, rfl⟩)
    exact Along.bind (Along.of_modify (Along.of_pure ⟨hs.of_eq rfl rfl rfl, hout⟩))
  · intro ok s₁ hs₁
    obtain ⟨hs₁, hout₁⟩ := hs₁
    refine Along.ite (fun _ => Along.of_pure (hsilent s₁ hs₁ hout₁)) fun _ => ?_
    rw [show m.type = .append by rw [hm]; rfl]
    refine Along.bind (Along.of_get (Along.ite (fun _ => ?_) fun haccepts => ?_))
    · refine Along.of_send trivial ⟨hs₁.of_eq rfl rfl rfl, fun _ r hr => ?_⟩
      simp only [hout₁, List.nil_append, List.mem_singleton] at hr
      rw [hr]
    · rw [hm] at haccepts
      have hlt := hs₁.lt_of_accepted hkind hold (Bool.eq_false_iff.mpr haccepts)
      have hindex : m.logIndex = i := by
        rw [hm]
        rfl
      have hentry : front[m.logIndex]? = some m.entry := by
        rw [hindex, hm, List.getElem?_eq_getElem hlt]
        simp [appendAt, List.getElem?_append_left hlt, List.getElem?_eq_getElem hlt]
      -- an acknowledgement is no answer to an entry from the joint entry on
      have hlate : ∀ s' : Node σ, Short voters front s' → Short voters front s' ∧
          (front.length ≤ i → ∀ r ∈ s'.outbound, r.reject = true) :=
        fun s' hs' => ⟨hs', fun hge => absurd hlt (Nat.not_lt.mpr hge)⟩
      have hfollows : Short voters front { s₁ with
        state := .follower, leader := m.fromID, elapsed := 0 } := hs₁.of_eq rfl rfl rfl
      refine Along.bind (Along.of_modify (Along.bind ?_))
      refine (along_storeEntry hfollows hplain hentry).mono fun ok s₂ hs₂ => ?_
      refine Along.ite (fun _ => Along.of_pure (hlate s₂ hs₂)) fun _ => Along.bind ?_
      refine (along_followCommit hs₂ hplain).mono fun ok s₃ hs₃ => ?_
      refine Along.ite (fun _ => Along.of_pure (hlate s₃ hs₃)) fun _ => ?_
      exact Along.of_send trivial (hlate _ (hs₃.of_eq rfl rfl rfl))

/-- The messages one after the other, in any order. -/
theorem along_deliveries (commits : Nat → Nat) (contexts : Nat → Word) (messages : List Nat)
    (hs : Short voters front s) (hout : s.outbound = []) (hplain : ∀ e ∈ front, e.isConfig = false)
    (hkind : joint.kind = .jointConfig) (hold : joint.oldVoters ≠ voters) : Along (fun _ => True)
      (messages.mapM fun i => deliver (appendAt leader id term ({} :: (front ++ joint :: rest)) i
        (commits i) (contexts i)))
      (fun answers s' => Short voters front s' ∧ ∀ i out, (i, out) ∈ messages.zip answers →
        front.length ≤ i → ∀ r ∈ out, r.reject = true) s := by
  induction messages generalizing s with
  | nil => exact Along.of_pure ⟨hs, fun i out h => absurd h List.not_mem_nil⟩
  | cons i messages ih =>
    rw [List.mapM_cons]
    refine Along.bind ((along_deliver hs hout hplain hkind hold).mono fun first s₁ hs₁ => ?_)
    obtain ⟨⟨hs₁, hout₁⟩, hfirst⟩ := hs₁
    refine Along.bind ((ih hs₁ hout₁).mono fun answers s₂ hs₂ => Along.of_pure ⟨hs₂.1, ?_⟩)
    intro i' out h
    rcases List.mem_cons.mp h with heq | hrest
    · cases heq
      exact hfirst
    · exact hs₂.2 i' out hrest

/-- A node that is not one of the voters never takes over the joint entry that adds it. `peers` are
the voters, with whom the new node was built, and the leader's log is `front`, which changes no
voters, then the joint entry from these voters to others, then the rest. The messages of the whole
log are delivered in order, with any commit indexes and contexts and over any store: when that
returns, the answer to the joint entry is no acknowledgement, and the node does not have the log of
the leader. -/
theorem joining_node_refuses {timeout : Nat} {peers : List Nat} {store : σ} {n : Node σ}
    {commits : Nat → Nat} {contexts : Nat → Word} {answers : List (List Message)}
    (hnew : newNodeWithStore id peers timeout store = .ok n) (hid : id ∉ peers)
    (hplain : ∀ e ∈ front, e.isConfig = false) (hkind : joint.kind = .jointConfig)
    (hold : ∀ p, Member joint.oldVoters p → p ∈ peers)
    (hrun : (List.range (front ++ joint :: rest).length).mapM (fun i => deliver (appendAt leader id
      term ({} :: (front ++ joint :: rest)) i (commits i) (contexts i))) n = .ok answers s) :
    (∀ out, answers[front.length]? = some out → ∀ r ∈ out, r.reject = true) ∧
      s.log ≠ {} :: (front ++ joint :: rest) := by
  obtain ⟨voters, hvoters, rfl⟩ := newNodeWithStore_cases hnew
  have hother : joint.oldVoters ≠ voters := by
    rintro rfl
    exact hid (hold id ((member_initialVoters hvoters).mpr (.inl rfl)))
  have hempty : Short voters front ({
      id := id, peers := peers, timeout := timeout, votersOld := voters, store := store } : Node σ) :=
    ⟨⟨0, Nat.zero_le _, rfl⟩, rfl, rfl⟩
  obtain ⟨_, _, hs, hanswers⟩ := GhostState.Wp.elim_ok
    (along_deliveries commits contexts _ hempty rfl hplain hkind hother) hrun
  refine ⟨fun out hout => hanswers front.length out ?_ (Nat.le_refl _), fun hlog => ?_⟩
  · refine List.mem_of_getElem? (i := front.length) (List.getElem?_zip_eq_some.mpr ⟨?_, hout⟩)
    exact List.getElem?_range (by simp)
  · obtain ⟨k, _, hshort⟩ := hs.log
    have hlen := congrArg List.length (hshort.symm.trans hlog)
    simp only [List.length_cons, List.length_take, List.length_append] at hlen
    omega

end Refusing

/-! A third node is added to two. The leader has the entry of its election, and then the joint
entry. -/

def joiningNode : Node Disk where
  id := 3
  peers := [1, 2]
  timeout := 5
  votersOld := 7
  store := {}

def electionEntry : Entry := { term := 1, kind := .noop }

def growingEntry : Entry := { term := 1, kind := .jointConfig, oldVoters := 3, newVoters := 7 }

/-- The messages of a leader with the log are delivered to the node. -/
def takeOver (log : List Entry) : NodeM Disk (List (List Message)) :=
  (List.range log.length).mapM fun i => deliver (appendAt 1 3 1 ({} :: log) i 1 0)

/-- What the node answers, and the log that it ends with. -/
def takenOver (log : List Entry) : Option (List (List Message) × List Entry) :=
  match takeOver log joiningNode with
  | .ok answers s => some (answers, s.log)
  | .error _ _ => none

theorem takeOver_of_some {log held : List Entry} {answers : List (List Message)}
    (h : takenOver log = some (answers, held)) :
    ∃ s, takeOver log joiningNode = .ok answers s ∧ s.log = held := by
  unfold takenOver at h
  split at h
  · rename_i s hrun
    cases h
    exact ⟨s, hrun, rfl⟩
  · cases h

/-- An answer of the node. -/
def acknowledgement (reject : Bool) : Message :=
  { type := .appendResponse, fromID := 3, toID := 1, term := 1, matchIndex := 1, reject := reject }

theorem joining_node_refuses_growingEntry : ∃ answers s,
    takeOver [electionEntry, growingEntry, electionEntry] joiningNode = .ok answers s ∧
    (∀ out, answers[1]? = some out → ∀ r ∈ out, r.reject = true) ∧
    s.log ≠ [{}, electionEntry, growingEntry, electionEntry] := by
  obtain ⟨s, hrun, _⟩ := takeOver_of_some (show takenOver [electionEntry, growingEntry, electionEntry] =
    some ([[acknowledgement false], [acknowledgement true], [acknowledgement true]],
      [{}, electionEntry]) by decide +kernel)
  have hnew : newNodeWithStore 3 [1, 2] 5 ({} : Disk) = .ok joiningNode := rfl
  have hold : ∀ p, Member growingEntry.oldVoters p → p ∈ [1, 2] := by
    rintro p ⟨_, hp, hbit⟩
    interval_cases p <;> revert hbit <;> decide
  obtain ⟨answers, hrun⟩ : ∃ answers,
      takeOver [electionEntry, growingEntry, electionEntry] joiningNode = .ok answers s := ⟨_, hrun⟩
  have hrefuses : (∀ out, answers[[electionEntry].length]? = some out → ∀ r ∈ out, r.reject = true) ∧
      s.log ≠ {} :: ([electionEntry] ++ growingEntry :: [electionEntry]) :=
    joining_node_refuses hnew (by decide) (by decide) rfl hold hrun
  exact ⟨answers, s, hrun, hrefuses⟩

/-- The node acknowledges the entry of the election, refuses the entry that adds it, and never gets
the log of the leader. -/
theorem joining_node_refuses_joint_entry : ∃ s,
    newNodeWithStore 3 [1, 2] 5 ({} : Disk) = .ok joiningNode ∧
    takeOver [electionEntry, growingEntry] joiningNode =
      .ok [[acknowledgement false], [acknowledgement true]] s ∧ s.log = [{}, electionEntry] := by
  obtain ⟨s, hrun, hlog⟩ := takeOver_of_some (show takenOver [electionEntry, growingEntry] =
    some ([[acknowledgement false], [acknowledgement true]], [{}, electionEntry]) by decide +kernel)
  exact ⟨s, rfl, hrun, hlog⟩

end Promtact.Raft
