import Promtact.Raft.Effects

/-!
# The same node over another store

A node sees its store through four calls, and of their results it only sees
whether there was an error. So two nodes that agree on everything else keep
agreeing as long as their stores give the same answers, whatever the stores are.

A `Link` relates the stores of two kinds. The first kind may leave the relation
for good (`lost`), and in a loose link so may a node of the second kind that its
store has stopped. `Linked` says that two programs keep nodes over linked stores
alike; one lemma for each function of a node leads to `linked_exec` for the
operations, and `recover_over` says that a restart does not look at the store.
-/

namespace Promtact.Raft

open Function (update)
open Node (indexes)

variable {σ τ α β : Type}

/-! ## Linked stores -/

structure Bond (σ τ : Type) where
  rel : σ → τ → Prop
  /-- The relation between saving a snapshot and cutting the log. -/
  saved : Snapshot → σ → τ → Prop
  lost : σ → Prop
  loose : Prop

namespace Bond

variable (B : Bond σ τ)

/-- Two calls give the same answer, and related stores when it is no error. -/
def Answers (R : σ → τ → Prop) (x : Option StoreError × σ) (y : Option StoreError × τ) : Prop :=
  (x.1 = none ∧ y.1 = none ∧ R x.2 y.2) ∨ (x.1 ≠ none ∧ y.1 ≠ none ∧ B.rel x.2 y.2) ∨
    B.lost x.2 ∨ (B.loose ∧ y.1 ≠ none)

/-- Both stores take snapshots, or neither does. -/
def Snapshots : Option (SnapshotStore σ) → Option (SnapshotStore τ) → Prop
  | none, none => True
  | some a, some b =>
    (∀ snapshot s t, B.rel s t →
      B.Answers (B.saved snapshot) (a.saveSnapshot snapshot s) (b.saveSnapshot snapshot t)) ∧
    (∀ snapshot s t, B.saved snapshot s t →
      B.Answers B.rel (a.compactLog snapshot.lastIndex s) (b.compactLog snapshot.lastIndex t)) ∧
    (∀ snapshot s, B.lost s → B.lost (a.saveSnapshot snapshot s).2) ∧
    ∀ index s, B.lost s → B.lost (a.compactLog index s).2
  | _, _ => False

end Bond

structure Link (σ τ : Type) [StableStore σ] [StableStore τ] extends Bond σ τ where
  saveHardState : ∀ hard s t, rel s t →
    toBond.Answers rel (StableStore.saveHardState hard s) (StableStore.saveHardState hard t)
  append : ∀ index entry s t, rel s t →
    toBond.Answers rel (StableStore.append index entry s) (StableStore.append index entry t)
  snapshots : toBond.Snapshots StableStore.snapshots StableStore.snapshots
  lost_saveHardState : ∀ hard s, lost s → lost (StableStore.saveHardState hard s).2
  lost_append : ∀ index entry s, lost s → lost (StableStore.append index entry s).2

/-! ## Nodes -/

/-- The node over another store. -/
abbrev Node.over (s : Node σ) (store : τ) (err : Option StoreError) : Node τ :=
  { s with store := store, storageErr := err }

/-- Two nodes that differ in their stores only, and in the texts of store errors. -/
def Bond.Alike (B : Bond σ τ) (s : Node σ) (t : Node τ) : Prop :=
  B.rel s.store t.store ∧ t = s.over t.store t.storageErr

/-- One of the nodes has left the relation. -/
def Bond.Gone (B : Bond σ τ) (s : Node σ) (t : Node τ) : Prop :=
  B.lost s.store ∨ (B.loose ∧ t.faulted = true)

/-- The programs end in the same way, with nodes that are alike. -/
def Bond.Ends (B : Bond σ τ) : EStateM.Result Panic (Node σ) α →
    EStateM.Result Panic (Node τ) α → Prop
  | .ok a s, .ok b t => (a = b ∧ B.Alike s t) ∨ B.Gone s t
  | .error a s, .error b t => (a = b ∧ B.Alike s t) ∨ B.Gone s t
  | .ok _ s, .error _ t => B.Gone s t
  | .error _ s, .ok _ t => B.Gone s t

theorem Bond.Ends.of_gone {B : Bond σ τ} {x : EStateM.Result Panic (Node σ) α}
    {y : EStateM.Result Panic (Node τ) α} (h : B.Gone (finalState x) (finalState y)) :
    B.Ends x y := by
  cases x <;> cases y
  · exact Or.inr h
  · exact h
  · exact h
  · exact Or.inr h

/-- The programs keep nodes alike, and what has left the relation stays away. -/
structure Linked (B : Bond σ τ) (p : NodeM σ α) (q : NodeM τ α) : Prop where
  ends : ∀ s t, B.Alike s t → B.Ends (p s) (q t)
  lost : ∀ s, B.lost s.store → B.lost (finalState (p s)).store
  stopped : ∀ t, t.faulted = true → (finalState (q t)).faulted = true

namespace Linked

variable {B : Bond σ τ}

theorem gone {p : NodeM σ α} {q : NodeM τ α} {p' : NodeM σ β} {q' : NodeM τ β}
    (h : Linked B p q) (h' : Linked B p' q') {s : Node σ} {t : Node τ} (hg : B.Gone s t) :
    B.Gone (finalState (p s)) (finalState (q' t)) := by
  rcases hg with hl | ⟨hloose, hf⟩
  · exact Or.inl (h.lost s hl)
  · exact Or.inr ⟨hloose, h'.stopped t hf⟩

theorem of_pure (a : α) : Linked B (pure a) (pure a) where
  ends _ _ h := Or.inl ⟨rfl, h⟩
  lost _ h := h
  stopped _ h := h

theorem bind {p : NodeM σ α} {q : NodeM τ α} {f : α → NodeM σ β} {g : α → NodeM τ β}
    (h : Linked B p q) (hk : ∀ a, Linked B (f a) (g a)) : Linked B (p >>= f) (q >>= g) where
  ends s t hst := by
    have h₁ := h.ends s t hst
    show B.Ends (EStateM.bind p f s) (EStateM.bind q g t)
    unfold EStateM.bind
    cases hp : p s with
    | ok a s' =>
      cases hq : q t with
      | ok b t' =>
        rw [hp, hq] at h₁
        rcases h₁ with ⟨rfl, halike⟩ | hgone
        · exact (hk a).ends s' t' halike
        · exact Bond.Ends.of_gone ((hk a).gone (hk b) hgone)
      | error b t' =>
        rw [hp, hq] at h₁
        refine Bond.Ends.of_gone ?_
        exact ((hk a).gone (Linked.of_pure a) (show B.Gone s' t' from h₁) :)
    | error a s' =>
      cases hq : q t with
      | ok b t' =>
        rw [hp, hq] at h₁
        refine Bond.Ends.of_gone ?_
        exact ((Linked.of_pure b).gone (hk b) (show B.Gone s' t' from h₁) :)
      | error b t' =>
        rw [hp, hq] at h₁
        exact h₁
  lost s hs := by
    have h₁ := h.lost s hs
    rw [finalState_bind]
    cases hp : p s with
    | ok a s' =>
      rw [hp] at h₁
      exact (hk a).lost s' h₁
    | error a s' =>
      rw [hp] at h₁
      exact h₁
  stopped t ht := by
    have h₁ := h.stopped t ht
    rw [finalState_bind]
    cases hq : q t with
    | ok a t' =>
      rw [hq] at h₁
      exact (hk a).stopped t' h₁
    | error a t' =>
      rw [hq] at h₁
      exact h₁

theorem ite {c : Prop} [Decidable c] {p p' : NodeM σ α} {q q' : NodeM τ α} (ht : Linked B p q)
    (he : Linked B p' q') : Linked B (if c then p else p') (if c then q else q') := by
  split
  · exact ht
  · exact he

theorem of_get [Inhabited σ] [Inhabited τ] {f : Node σ → NodeM σ α} {g : Node τ → NodeM τ α}
    (h : ∀ (n : Node σ) store err, Linked B (f n) (g (n.over store err))) :
    Linked B (get >>= f) (get >>= g) where
  ends s t hst := by
    have h₁ := (h s t.store t.storageErr).ends s t hst
    rw [← hst.2] at h₁
    exact h₁
  lost s hs := (h s default none).lost s hs
  stopped t ht := (h (t.over default none) t.store t.storageErr).stopped t ht

theorem of_modify {u : Node σ → Node σ} {v : Node τ → Node τ}
    (h : ∀ (n : Node σ) store err, ∃ err', v (n.over store err) = (u n).over store err')
    (hstore : ∀ n, (u n).store = n.store)
    (hstopped : ∀ n, n.faulted = true → (v n).faulted = true) :
    Linked B (modify u) (modify v) where
  ends s t hst := by
    obtain ⟨err, heq⟩ := h s t.store t.storageErr
    rw [← hst.2] at heq
    refine Or.inl ⟨rfl, ?_, ?_⟩
    · show B.rel (u s).store (v t).store
      rw [heq, hstore]
      exact hst.1
    · show v t = (u s).over (v t).store (v t).storageErr
      rw [heq]
  lost s hs := by
    show B.lost (u s).store
    rwa [hstore]
  stopped t ht := hstopped t ht

/-- An update that touches neither the store nor the fault. -/
theorem of_update [Inhabited σ] [Inhabited τ] {u : Node σ → Node σ} {v : Node τ → Node τ}
    (h : ∀ (n : Node σ) store err, v (n.over store err) = (u n).over store err ∧
      (u n).store = n.store ∧ (u n).faulted = n.faulted) : Linked B (modify u) (modify v) := by
  refine of_modify (fun n store err => ⟨err, (h n store err).1⟩) (fun n => (h n default none).2.1)
    fun t ht => ?_
  obtain ⟨heq, -, hfaulted⟩ := h (t.over default none) t.store t.storageErr
  rw [show v t = _ from heq]
  exact hfaulted.trans ht

theorem of_update_if [Inhabited σ] [Inhabited τ] {c : Node σ → Prop} {d : Node τ → Prop}
    [DecidablePred c] [DecidablePred d] {u : Node σ → Node σ} {v : Node τ → Node τ}
    (hc : ∀ (n : Node σ) store err, d (n.over store err) ↔ c n)
    (h : ∀ (n : Node σ) store err, v (n.over store err) = (u n).over store err ∧
      (u n).store = n.store ∧ (u n).faulted = n.faulted) :
    Linked B (modify fun n => if c n then u n else n) (modify fun n => if d n then v n else n) := by
  refine of_update fun n store err => ?_
  by_cases hn : c n
  · rw [if_pos hn, if_pos ((hc n store err).mpr hn)]
    exact h n store err
  · rw [if_neg hn, if_neg (mt (hc n store err).mp hn)]
    exact ⟨rfl, rfl, rfl⟩

theorem of_ask {f : Node σ → Except Panic α} {g : Node τ → Except Panic α}
    (h : ∀ (n : Node σ) store err, g (n.over store err) = f n) :
    Linked B (ask f) (ask g) where
  ends s t hst := by
    have heq := h s t.store t.storageErr
    rw [← hst.2] at heq
    unfold ask
    rw [heq]
    cases f s with
    | ok a => exact Or.inl ⟨rfl, hst⟩
    | error e => exact Or.inl ⟨rfl, hst⟩
  lost s hs := by
    unfold ask
    cases f s <;> exact hs
  stopped t ht := by
    unfold ask
    cases g t <;> exact ht

theorem ask_bind {f : Node σ → Except Panic α} {g : Node τ → Except Panic α} {k : α → NodeM σ β}
    {l : α → NodeM τ β} (h : ∀ (n : Node σ) store err, g (n.over store err) = f n)
    (hk : ∀ a, Linked B (k a) (l a)) : Linked B (ask f >>= k) (ask g >>= l) :=
  (of_ask h).bind hk

theorem update_bind [Inhabited σ] [Inhabited τ] {u : Node σ → Node σ} {v : Node τ → Node τ}
    {k : Unit → NodeM σ β} {l : Unit → NodeM τ β}
    (h : ∀ (n : Node σ) store err, v (n.over store err) = (u n).over store err ∧
      (u n).store = n.store ∧ (u n).faulted = n.faulted)
    (hk : ∀ a, Linked B (k a) (l a)) : Linked B (modify u >>= k) (modify v >>= l) :=
  (of_update h).bind hk

theorem forM {ι : Type} {f : ι → NodeM σ PUnit} {g : ι → NodeM τ PUnit}
    (h : ∀ i, Linked B (f i) (g i)) (l : List ι) : Linked B (l.forM f) (l.forM g) := by
  induction l with
  | nil => exact of_pure _
  | cons i l ih => exact (h i).bind fun _ => ih

theorem foldlM {ι : Type} {f : β → ι → NodeM σ β} {g : β → ι → NodeM τ β}
    (h : ∀ b i, Linked B (f b i) (g b i)) (l : List ι) (b : β) :
    Linked B (l.foldlM f b) (l.foldlM g b) := by
  induction l generalizing b with
  | nil => exact of_pure _
  | cons i l ih => exact (h b i).bind fun b' => ih b'

end Linked

/-! ## Sending and storing -/

section Programs

variable {B : Bond σ τ}

theorem Bond.Alike.eq_over {s : Node σ} {t : Node τ} (h : B.Alike s t) :
    ∃ store err, t = s.over store err ∧ B.rel s.store store := ⟨_, _, h.2, h.1⟩

theorem send_eq (m : Message) (s : Node σ) : send m s =
    if s.outbound.length = outboundCapacity then .error .outboundCapacityExceeded s
    else .ok () { s with outbound := s.outbound ++ [m] } := by
  show (if s.outbound.length = outboundCapacity then _ else _ : NodeM σ Unit) s = _
  split <;> rfl

theorem linked_send (m : Message) : Linked B (send m) (send m) where
  ends s t hst := by
    obtain ⟨store, err, rfl, hrel⟩ := hst.eq_over
    rw [send_eq, send_eq]
    by_cases hfull : s.outbound.length = outboundCapacity
    · rw [if_pos hfull, if_pos hfull]
      exact Or.inl ⟨rfl, hrel, rfl⟩
    · rw [if_neg hfull, if_neg hfull]
      exact Or.inl ⟨rfl, hrel, rfl⟩
  lost s hs := by
    rw [send_eq]
    split <;> exact hs
  stopped t ht := by
    rw [send_eq]
    split <;> exact ht

theorem linked_failStorage : Linked B (failStorage : NodeM σ Unit) failStorage :=
  Linked.of_modify (fun _ _ err => ⟨some (err.getD errStorage), rfl⟩) (fun _ => rfl) fun _ _ => rfl

/-- A store call leaves its answer in the store and, when it failed, stops the node. -/
theorem tryStore_store (call : σ → Option StoreError × σ) (s : Node σ) :
    (finalState (tryStore call s)).store = (call s.store).2 ∧
      ((call s.store).1 ≠ none → (finalState (tryStore call s)).faulted = true) ∧
      (s.faulted = true → (finalState (tryStore call s)).faulted = true) := by
  cases hc : (call s.store).1 with
  | none =>
    rw [tryStore_ok hc]
    exact ⟨rfl, fun h => absurd rfl h, id⟩
  | some err =>
    rw [tryStore_error hc]
    exact ⟨rfl, fun _ => rfl, fun _ => rfl⟩

theorem tryStore_ends {c : σ → Option StoreError × σ} {d : τ → Option StoreError × τ} {s : Node σ}
    {store : τ} {err : Option StoreError} (h : B.Answers B.rel (c s.store) (d store)) :
    B.Ends (tryStore c s) (tryStore d (s.over store err)) := by
  rcases h with ⟨hc, hd, hrel⟩ | ⟨hc, hd, hrel⟩ | hlost | ⟨hloose, hd⟩
  · rw [tryStore_ok hc, tryStore_ok (s := s.over store err) hd]
    exact Or.inl ⟨rfl, hrel, rfl⟩
  · obtain ⟨e, hc⟩ := Option.ne_none_iff_exists'.mp hc
    obtain ⟨e', hd⟩ := Option.ne_none_iff_exists'.mp hd
    rw [tryStore_error hc, tryStore_error (s := s.over store err) hd]
    exact Or.inl ⟨rfl, hrel, rfl⟩
  · refine Bond.Ends.of_gone (Or.inl ?_)
    rwa [(tryStore_store c s).1]
  · exact Bond.Ends.of_gone (Or.inr ⟨hloose, (tryStore_store d (s.over store err)).2.1 hd⟩)

theorem linked_tryStore {c : σ → Option StoreError × σ} {d : τ → Option StoreError × τ}
    (h : ∀ s t, B.rel s t → B.Answers B.rel (c s) (d t))
    (hl : ∀ s, B.lost s → B.lost (c s).2) : Linked B (tryStore c) (tryStore d) where
  ends s t hst := by
    obtain ⟨store, err, rfl, hrel⟩ := hst.eq_over
    exact tryStore_ends (h s.store store hrel)
  lost s hs := by
    rw [(tryStore_store c s).1]
    exact hl s.store hs
  stopped t ht := (tryStore_store d t).2.2 ht

/-- Two calls, with a relation of its own in between. -/
theorem linked_tryStore_twice {c c' : σ → Option StoreError × σ} {d d' : τ → Option StoreError × τ}
    {R : σ → τ → Prop} (h : ∀ s t, B.rel s t → B.Answers R (c s) (d t))
    (h' : ∀ s t, R s t → B.Answers B.rel (c' s) (d' t)) (hl : ∀ s, B.lost s → B.lost (c s).2)
    (hl' : ∀ s, B.lost s → B.lost (c' s).2) :
    Linked B (do
      if !(← tryStore c) then return false
      tryStore c')
    (do
      if !(← tryStore d) then return false
      tryStore d') := by
  -- what has left the relation stays away, as after any two calls
  have hfirst : Linked { B with rel := fun _ _ => False } (tryStore c) (tryStore d) :=
    linked_tryStore (fun _ _ hno => hno.elim) hl
  have hsecond : ∀ ok : Bool, Linked { B with rel := fun _ _ => False }
      (if !ok then return false else tryStore c') (if !ok then return false else tryStore d') :=
    fun _ => Linked.ite (Linked.of_pure _) (linked_tryStore (fun _ _ hno => hno.elim) hl')
  have hboth := hfirst.bind hsecond
  refine ⟨fun s t hst => ?_, hboth.lost, hboth.stopped⟩
  obtain ⟨store, err, rfl, hrel⟩ := hst.eq_over
  rcases h s.store store hrel with ⟨hc, hd, hR⟩ | ⟨hc, hd, hrel'⟩ | hlost | ⟨hloose, hd⟩
  · show B.Ends (EStateM.bind _ _ s) (EStateM.bind _ _ (s.over store err))
    unfold EStateM.bind
    rw [tryStore_ok hc, tryStore_ok (s := s.over store err) hd]
    exact tryStore_ends (h' _ _ hR)
  · obtain ⟨e, hc⟩ := Option.ne_none_iff_exists'.mp hc
    obtain ⟨e', hd⟩ := Option.ne_none_iff_exists'.mp hd
    show B.Ends (EStateM.bind _ _ s) (EStateM.bind _ _ (s.over store err))
    unfold EStateM.bind
    rw [tryStore_error hc, tryStore_error (s := s.over store err) hd]
    exact Or.inl ⟨rfl, hrel', rfl⟩
  · refine Bond.Ends.of_gone (Or.inl ?_)
    have hmid := (tryStore_store c s).1
    rw [finalState_bind]
    cases hrun : tryStore c s with
    | ok ok s' =>
      rw [hrun] at hmid
      exact (hsecond ok).lost s' (show B.lost s'.store from hmid ▸ hlost)
    | error e s' =>
      rw [hrun] at hmid
      exact (show B.lost s'.store from hmid ▸ hlost)
  · refine Bond.Ends.of_gone (Or.inr ⟨hloose, ?_⟩)
    have hmid := (tryStore_store d (s.over store err)).2.1 hd
    rw [finalState_bind]
    cases hrun : tryStore d (s.over store err) with
    | ok ok t' =>
      rw [hrun] at hmid
      exact (hsecond ok).stopped t' hmid
    | error e t' =>
      rw [hrun] at hmid
      exact hmid

/-! ## Programs that do not write -/

theorem ensurePeers_over (mask : Word) (n : Node σ) (store : τ) (err : Option StoreError) :
    (n.over store err).ensurePeers mask = (n.ensurePeers mask).over store err := by
  unfold Node.ensurePeers
  generalize indexes 1 64 = ids
  induction ids generalizing n with
  | nil => rfl
  | cons id ids ih =>
    rw [List.foldl_cons, List.foldl_cons, ← ih]
    congr 1
    unfold Node.ensurePeer
    split <;> rfl

theorem ensurePeers_keeps (mask : Word) (n : Node σ) :
    (n.ensurePeers mask).store = n.store ∧ (n.ensurePeers mask).faulted = n.faulted := by
  unfold Node.ensurePeers
  refine List.foldlRecOn (motive := fun m : Node σ => m.store = n.store ∧ m.faulted = n.faulted) _ _
    ⟨rfl, rfl⟩ ?_
  intro m hm id _
  unfold Node.ensurePeer
  split <;> exact hm

theorem committable_over (n : Node σ) (store : τ) (err : Option StoreError) (index : Nat) :
    (n.over store err).committable index = n.committable index := by
  induction index with
  | zero => rfl
  | succ index ih =>
    rw [Node.committable, Node.committable, ih]
    rfl

theorem resetProgress_over (next : Nat) (l : List Nat) (n : Node σ) (store : τ)
    (err : Option StoreError) : l.foldl (Node.resetProgress next) (n.over store err) =
      (l.foldl (Node.resetProgress next) n).over store err := by
  induction l generalizing n with
  | nil => rfl
  | cons p l ih =>
    rw [List.foldl_cons, List.foldl_cons, ← ih]
    rfl

theorem resetProgress_keeps (next : Nat) (l : List Nat) (n : Node σ) :
    (l.foldl (Node.resetProgress next) n).store = n.store ∧
      (l.foldl (Node.resetProgress next) n).faulted = n.faulted := by
  induction l generalizing n with
  | nil => exact ⟨rfl, rfl⟩
  | cons p l ih => exact ih _

variable [Inhabited σ] [Inhabited τ]

theorem linked_ensurePeers (mask : Word) :
    Linked B (modify (Node.ensurePeers mask)) (modify (Node.ensurePeers mask)) :=
  Linked.of_update fun n store err =>
    ⟨ensurePeers_over mask n store err, ensurePeers_keeps mask n⟩

theorem linked_installConfiguration (entry : Entry) :
    Linked B (installConfiguration entry) (installConfiguration entry) := by
  unfold installConfiguration
  split
  · refine Linked.update_bind (fun _ _ _ => ⟨rfl, rfl, rfl⟩) fun _ => linked_ensurePeers _
  · refine Linked.update_bind (fun _ _ _ => ⟨rfl, rfl, rfl⟩) fun _ => ?_
    refine Linked.ask_bind (fun _ _ _ => rfl) fun _ => Linked.ite ?_ (Linked.of_pure _)
    exact Linked.of_update fun _ _ _ => ⟨rfl, rfl, rfl⟩
  · exact Linked.of_pure _

theorem linked_appendToContext (p : Nat) (context : Word) :
    Linked B (appendToContext p context) (appendToContext p context) := by
  refine Linked.of_get fun n store err => Linked.ite (linked_send _) ?_
  refine Linked.bind (Linked.of_update_if (fun _ _ _ => Iff.rfl) fun _ _ _ => ⟨rfl, rfl, rfl⟩)
    fun _ => ?_
  refine Linked.of_get fun n store err => Linked.ask_bind (fun _ _ _ => rfl) fun _ => ?_
  refine Linked.ite ?_ (linked_send _)
  exact Linked.ask_bind (fun _ _ _ => rfl) fun _ => linked_send _

theorem linked_broadcastAppend : Linked B (broadcastAppend : NodeM σ Unit) broadcastAppend := by
  refine Linked.of_get fun n store err => Linked.forM (fun p => ?_) _
  refine Linked.ask_bind (fun _ _ _ => rfl) fun _ => Linked.ite ?_ (Linked.of_pure _)
  exact linked_appendToContext p 0

theorem linked_applyCommittedConfigurations (first last : Nat) :
    Linked B (applyCommittedConfigurations first last)
      (applyCommittedConfigurations first last) := by
  refine Linked.of_get fun n store err => Linked.forM (fun index => ?_) _
  refine Linked.ask_bind (fun _ _ _ => rfl) fun entry => ?_
  refine Linked.bind (linked_installConfiguration entry) fun _ => ?_
  exact Linked.of_update_if (fun _ _ _ => Iff.rfl) fun _ _ _ => ⟨rfl, rfl, rfl⟩

theorem linked_rebuildPendingConfig :
    Linked B (rebuildPendingConfig : NodeM σ Unit) rebuildPendingConfig := by
  refine Linked.update_bind (fun _ _ _ => ⟨rfl, rfl, rfl⟩) fun _ => ?_
  refine Linked.of_get fun n store err => Linked.forM (fun index => ?_) _
  refine Linked.ask_bind (fun _ _ _ => rfl) fun entry => Linked.ite ?_ (Linked.of_pure _)
  exact Linked.update_bind (fun _ _ _ => ⟨rfl, rfl, rfl⟩) fun _ => linked_ensurePeers _

theorem linked_upToDate (m : Message) : Linked B (upToDate m) (upToDate m) :=
  Linked.of_get fun _ _ _ => Linked.ask_bind (fun _ _ _ => rfl) fun _ => Linked.of_pure _

theorem linked_onPreVote (m : Message) : Linked B (onPreVote m) (onPreVote m) := by
  refine Linked.of_get fun n store err => Linked.bind (linked_upToDate m) fun _ => ?_
  exact Linked.ask_bind (fun _ _ _ => rfl) fun _ => linked_send _

theorem linked_truncateConflict (index term : Nat) :
    Linked B (truncateConflict index term) (truncateConflict index term) := by
  refine Linked.of_get fun n store err => ?_
  rw [show (n.over store err).termAt index = n.termAt index from rfl]
  cases n.termAt index with
  | none => exact Linked.of_pure _
  | some present =>
    refine Linked.ite ?_ (Linked.of_pure _)
    exact Linked.update_bind (fun _ _ _ => ⟨rfl, rfl, rfl⟩) fun _ => linked_rebuildPendingConfig

theorem linked_confirmRead (m : Message) : Linked B (confirmRead m) (confirmRead m) := by
  refine Linked.of_get fun n store err => Linked.ite ?_ (Linked.of_pure _)
  refine Linked.ask_bind (fun _ _ _ => rfl) fun _ => Linked.ite ?_ (Linked.of_pure _)
  refine Linked.ask_bind (fun _ _ _ => rfl) fun _ => ?_
  refine Linked.update_bind (fun _ _ _ => ⟨rfl, rfl, rfl⟩) fun _ => ?_
  refine Linked.ask_bind (fun _ _ _ => rfl) fun _ => Linked.ite ?_ (Linked.of_pure _)
  exact Linked.of_update fun _ _ _ => ⟨rfl, rfl, rfl⟩

theorem linked_onInstallSnapshotResponse (m : Message) :
    Linked B (onInstallSnapshotResponse m) (onInstallSnapshotResponse m) := by
  refine Linked.of_get fun n store err => Linked.ite (Linked.of_pure _) ?_
  refine Linked.ask_bind (fun _ _ _ => rfl) fun _ => Linked.ite (Linked.of_pure _) ?_
  refine Linked.bind (Linked.of_update_if (fun _ _ _ => Iff.rfl) fun _ _ _ => ⟨rfl, rfl, rfl⟩)
    fun _ => ?_
  refine Linked.of_get fun n store err => Linked.ite ?_ (Linked.of_pure _)
  exact linked_appendToContext _ _

theorem linked_startReadIndex (context : Word) :
    Linked B (startReadIndex context) (startReadIndex context) := by
  refine Linked.ask_bind (fun _ _ _ => rfl) fun _ => Linked.ite (Linked.of_pure _) ?_
  refine Linked.ask_bind (fun _ _ _ => rfl) fun own => ?_
  refine Linked.update_bind (fun _ _ _ => ⟨rfl, rfl, rfl⟩) fun _ => ?_
  refine Linked.ask_bind (fun _ _ _ => rfl) fun ready => ?_
  refine Linked.update_bind (fun _ _ _ => ⟨rfl, rfl, rfl⟩) fun _ => ?_
  refine Linked.of_get fun n store err => Linked.bind (Linked.forM (fun p => ?_) _) fun _ =>
    Linked.of_pure _
  exact linked_appendToContext p context

end Programs

/-! ## Programs that write -/

section Stores

variable [StableStore σ] [StableStore τ] {L : Link σ τ}

theorem linked_persistHardState (hard : HardState) :
    Linked L.toBond (persistHardState hard) (persistHardState hard) :=
  linked_tryStore (L.saveHardState hard) (L.lost_saveHardState hard)

theorem linked_storeAppend (index : Nat) (entry : Entry) :
    Linked L.toBond (tryStore (StableStore.append index entry))
      (tryStore (StableStore.append index entry)) :=
  linked_tryStore (L.append index entry) (L.lost_append index entry)

/-- Between the two calls the snapshot is saved and the log is not cut yet. -/
theorem linked_saveAndCompact (snapshot : Snapshot) :
    Linked L.toBond (saveAndCompact snapshot) (saveAndCompact snapshot) := by
  have hsnaps := L.snapshots
  unfold saveAndCompact
  cases ha : StableStore.snapshots (σ := σ) with
  | none =>
    cases hb : StableStore.snapshots (σ := τ) with
    | none => exact Linked.bind linked_failStorage fun _ => Linked.of_pure _
    | some b => rw [ha, hb] at hsnaps; exact hsnaps.elim
  | some a =>
    cases hb : StableStore.snapshots (σ := τ) with
    | none => rw [ha, hb] at hsnaps; exact hsnaps.elim
    | some b =>
      rw [ha, hb] at hsnaps
      obtain ⟨hsave, hcompact, hlostSave, hlostCompact⟩ := hsnaps
      exact linked_tryStore_twice (hsave snapshot) (hcompact snapshot) (hlostSave snapshot)
        (hlostCompact snapshot.lastIndex)

variable [Inhabited σ] [Inhabited τ]

theorem linked_commitTo (index : Nat) : Linked L.toBond (commitTo index) (commitTo index) := by
  refine Linked.of_get fun n store err => Linked.bind (linked_persistHardState _) fun _ => ?_
  refine Linked.ite (Linked.of_pure _) ?_
  refine Linked.update_bind (fun _ _ _ => ⟨rfl, rfl, rfl⟩) fun _ => ?_
  exact Linked.bind (linked_applyCommittedConfigurations _ _) fun _ => Linked.of_pure _

theorem linked_commitOwn : Linked L.toBond commitOwn commitOwn := by
  refine Linked.of_get fun n store err => ?_
  refine Linked.update_bind (fun _ _ _ => ⟨rfl, rfl, rfl⟩) fun _ => ?_
  refine Linked.bind (linked_persistHardState _) fun _ => Linked.ite ?_ ?_
  · exact Linked.update_bind (fun _ _ _ => ⟨rfl, rfl, rfl⟩) fun _ => Linked.of_pure _
  · exact Linked.bind (linked_applyCommittedConfigurations _ _) fun _ => Linked.of_pure _

theorem linked_appendLocal (entry : Entry) :
    Linked L.toBond (appendLocal entry) (appendLocal entry) := by
  refine Linked.of_get fun n store err => Linked.bind (linked_storeAppend _ _) fun _ => ?_
  refine Linked.ite (Linked.of_pure _) ?_
  refine Linked.update_bind (fun _ _ _ => ⟨rfl, rfl, rfl⟩) fun _ => ?_
  refine Linked.ask_bind (fun _ _ _ => rfl) fun _ => Linked.ask_bind (fun _ _ _ => rfl) fun _ => ?_
  exact Linked.ite (Linked.of_pure _) linked_commitOwn

theorem linked_becomeLeader : Linked L.toBond becomeLeader becomeLeader := by
  refine Linked.update_bind (fun _ _ _ => ⟨rfl, rfl, rfl⟩) fun _ => ?_
  refine Linked.of_get fun n store err => ?_
  refine Linked.bind (linked_appendLocal _) fun _ => Linked.ite (Linked.of_pure _) ?_
  refine Linked.update_bind (fun n store err => ?_) fun _ => linked_broadcastAppend
  exact ⟨resetProgress_over _ _ _ _ _, resetProgress_keeps _ _ _⟩

theorem linked_startElection : Linked L.toBond startElection startElection := by
  refine Linked.of_get fun n store err => Linked.bind (linked_persistHardState _) fun _ => ?_
  refine Linked.ite (Linked.of_pure _) (Linked.ask_bind (fun _ _ _ => rfl) fun own => ?_)
  refine Linked.update_bind (fun _ _ _ => ⟨rfl, rfl, rfl⟩) fun _ => ?_
  refine Linked.of_get fun n store err => ?_
  refine Linked.bind (Linked.forM (fun p => ?_) _) fun _ => ?_
  · exact Linked.ask_bind (fun _ _ _ => rfl) fun _ => linked_send _
  · refine Linked.ask_bind (fun _ _ _ => rfl) fun _ => ?_
    exact Linked.ite linked_becomeLeader (Linked.of_pure _)

theorem linked_startPreVote : Linked L.toBond startPreVote startPreVote := by
  refine Linked.ask_bind (fun _ _ _ => rfl) fun own => ?_
  refine Linked.update_bind (fun _ _ _ => ⟨rfl, rfl, rfl⟩) fun _ => ?_
  refine Linked.of_get fun n store err => ?_
  refine Linked.bind (Linked.forM (fun p => ?_) _) fun _ => ?_
  · exact Linked.ask_bind (fun _ _ _ => rfl) fun _ => linked_send _
  · refine Linked.ask_bind (fun _ _ _ => rfl) fun _ => ?_
    exact Linked.ite linked_startElection (Linked.of_pure _)

theorem linked_tick : Linked L.toBond tick tick := by
  refine Linked.of_get fun n store err => Linked.ite (Linked.of_pure _) ?_
  refine Linked.update_bind (fun _ _ _ => ⟨rfl, rfl, rfl⟩) fun _ => ?_
  refine Linked.of_get fun n store err => ?_
  refine Linked.ite (Linked.ite ?_ (Linked.of_pure _)) ?_
  · exact Linked.update_bind (fun _ _ _ => ⟨rfl, rfl, rfl⟩) fun _ => linked_broadcastAppend
  · exact Linked.ite linked_startPreVote (Linked.of_pure _)

theorem linked_onVote (m : Message) : Linked L.toBond (onVote m) (onVote m) := by
  refine Linked.of_get fun n store err => Linked.bind (linked_upToDate m) fun _ => ?_
  refine Linked.ask_bind (fun _ _ _ => rfl) fun _ => Linked.ite (linked_send _) ?_
  refine Linked.bind (linked_persistHardState _) fun _ => Linked.ite (Linked.of_pure _) ?_
  exact Linked.update_bind (fun _ _ _ => ⟨rfl, rfl, rfl⟩) fun _ => linked_send _

theorem linked_storeEntry (m : Message) : Linked L.toBond (storeEntry m) (storeEntry m) := by
  refine Linked.ite (Linked.of_pure _) ?_
  refine Linked.bind (linked_truncateConflict _ _) fun _ => Linked.of_get fun n store err => ?_
  refine Linked.ite (Linked.of_pure _) (Linked.bind (linked_storeAppend _ _) fun _ => ?_)
  refine Linked.ite (Linked.of_pure _) ?_
  refine Linked.update_bind (fun _ _ _ => ⟨rfl, rfl, rfl⟩) fun _ => ?_
  refine Linked.ite ?_ (Linked.of_pure _)
  refine Linked.update_bind (fun _ _ _ => ⟨rfl, rfl, rfl⟩) fun _ => ?_
  exact Linked.bind (linked_ensurePeers _) fun _ => Linked.of_pure _

theorem linked_followCommit (m : Message) : Linked L.toBond (followCommit m) (followCommit m) :=
  Linked.of_get fun _ _ _ => Linked.ite (Linked.of_pure _) (linked_commitTo _)

theorem linked_onAppend (m : Message) : Linked L.toBond (onAppend m) (onAppend m) := by
  refine Linked.of_get fun n store err => Linked.ite (linked_send _) ?_
  refine Linked.update_bind (fun _ _ _ => ⟨rfl, rfl, rfl⟩) fun _ => ?_
  refine Linked.bind (linked_storeEntry m) fun _ => ?_
  refine Linked.ite (Linked.of_pure _) (Linked.bind (linked_followCommit m) fun _ => ?_)
  exact Linked.ite (Linked.of_pure _) (linked_send _)

theorem linked_advanceCommit : Linked L.toBond advanceCommit advanceCommit := by
  refine Linked.of_get fun n store err => Linked.bind (Linked.of_ask fun n store err => ?_)
    fun found => ?_
  · exact committable_over _ _ _ _
  · cases found with
    | none => exact Linked.of_pure _
    | some index =>
      refine Linked.bind (linked_commitTo index) fun _ => Linked.ite (Linked.of_pure _) ?_
      refine Linked.of_get fun n store err => Linked.ite ?_ (Linked.of_pure _)
      exact Linked.bind linked_broadcastAppend fun _ => Linked.of_pure _

theorem linked_onAppendResponse (m : Message) :
    Linked L.toBond (onAppendResponse m) (onAppendResponse m) := by
  refine Linked.bind (linked_confirmRead m) fun _ => Linked.of_get fun n store err => ?_
  refine Linked.ite (Linked.of_pure _) (Linked.ite ?_ ?_)
  · exact Linked.bind (Linked.of_update_if (fun _ _ _ => Iff.rfl) fun _ _ _ => ⟨rfl, rfl, rfl⟩)
      fun _ => linked_appendToContext _ _
  · refine Linked.update_bind (fun _ _ _ => ⟨rfl, rfl, rfl⟩) fun _ => ?_
    refine Linked.bind linked_advanceCommit fun _ => ?_
    refine Linked.ite (Linked.of_pure _) (Linked.of_get fun n store err => ?_)
    refine Linked.ite (Linked.of_pure _) (Linked.ite ?_ (Linked.of_pure _))
    exact linked_appendToContext _ _

theorem linked_compact (index : Nat) (state : List UInt8) :
    Linked L.toBond (compact index state) (compact index state) := by
  refine Linked.of_get fun n store err => Linked.ite (Linked.of_pure _) ?_
  rw [show (n.over store err).termAt index = n.termAt index from rfl]
  cases n.termAt index with
  | none => exact Linked.of_pure _
  | some term =>
    refine Linked.bind (linked_saveAndCompact _) fun _ => Linked.ite (Linked.of_pure _) ?_
    exact Linked.update_bind (fun _ _ _ => ⟨rfl, rfl, rfl⟩) fun _ => Linked.of_pure _

theorem linked_onInstallSnapshot (m : Message) :
    Linked L.toBond (onInstallSnapshot m) (onInstallSnapshot m) := by
  have hinstall : Linked L.toBond (installSnapshot m) (installSnapshot m) := by
    refine Linked.of_get fun n store err => Linked.ite (Linked.of_pure _) ?_
    refine Linked.bind (linked_saveAndCompact _) fun _ => Linked.ite (Linked.of_pure _) ?_
    exact Linked.update_bind (fun _ _ _ => ⟨rfl, rfl, rfl⟩) fun _ => Linked.of_pure _
  refine Linked.of_get fun n store err => Linked.ite (linked_send _) ?_
  refine Linked.bind hinstall fun _ => Linked.ite (Linked.of_pure _) ?_
  refine Linked.update_bind (fun _ _ _ => ⟨rfl, rfl, rfl⟩) fun _ => ?_
  exact Linked.of_get fun n store err => linked_send _

theorem linked_adoptTerm (m : Message) : Linked L.toBond (adoptTerm m) (adoptTerm m) := by
  refine Linked.of_get fun n store err => Linked.ite (Linked.of_pure _) ?_
  refine Linked.bind (linked_persistHardState _) fun _ => Linked.ite (Linked.of_pure _) ?_
  exact Linked.update_bind (fun _ _ _ => ⟨rfl, rfl, rfl⟩) fun _ => Linked.of_pure _

theorem linked_step (m : Message) : Linked L.toBond (step m) (step m) := by
  refine Linked.of_get fun n store err => Linked.ite (Linked.of_pure _) ?_
  refine Linked.bind (linked_adoptTerm m) fun _ => Linked.ite (Linked.of_pure _) ?_
  cases m.type with
  | preVote => exact linked_onPreVote m
  | preVoteResponse =>
    refine Linked.of_get fun n store err => Linked.ite (Linked.of_pure _) ?_
    refine Linked.ask_bind (fun _ _ _ => rfl) fun _ => Linked.ite (Linked.of_pure _) ?_
    refine Linked.ite (Linked.of_pure _) (Linked.ask_bind (fun _ _ _ => rfl) fun _ => ?_)
    refine Linked.update_bind (fun _ _ _ => ⟨rfl, rfl, rfl⟩) fun _ => ?_
    refine Linked.ask_bind (fun _ _ _ => rfl) fun _ => ?_
    exact Linked.ite linked_startElection (Linked.of_pure _)
  | requestVote => exact linked_onVote m
  | requestVoteResponse =>
    refine Linked.of_get fun n store err => Linked.ite (Linked.of_pure _) ?_
    refine Linked.ask_bind (fun _ _ _ => rfl) fun _ => Linked.ite (Linked.of_pure _) ?_
    refine Linked.ite (Linked.of_pure _) (Linked.ask_bind (fun _ _ _ => rfl) fun _ => ?_)
    refine Linked.update_bind (fun _ _ _ => ⟨rfl, rfl, rfl⟩) fun _ => ?_
    refine Linked.ask_bind (fun _ _ _ => rfl) fun _ => ?_
    exact Linked.ite linked_becomeLeader (Linked.of_pure _)
  | append => exact linked_onAppend m
  | appendResponse => exact linked_onAppendResponse m
  | installSnapshot => exact linked_onInstallSnapshot m
  | installSnapshotResponse => exact linked_onInstallSnapshotResponse m
  | timeoutNow =>
    exact Linked.of_get fun n store err => Linked.ite linked_startElection (Linked.of_pure _)
  | other code => exact Linked.of_pure _

/-! ## Operations -/

theorem linked_exec (op : Op) : Linked L.toBond op.exec op.exec := by
  cases op with
  | tick => exact Linked.bind linked_tick fun _ => Linked.of_pure _
  | step m => exact Linked.bind (linked_step m) fun _ => Linked.of_pure _
  | propose command =>
    refine Linked.bind (Linked.of_get fun n store err => Linked.ite (Linked.of_pure _) ?_) fun _ =>
      Linked.of_pure _
    refine Linked.bind (linked_appendLocal _) fun _ => Linked.ite (Linked.of_pure _) ?_
    exact Linked.bind linked_broadcastAppend fun _ => Linked.of_pure _
  | proposeRequest operation clientID requestID key value =>
    refine Linked.bind (Linked.of_get fun n store err => Linked.ite (Linked.of_pure _) ?_) fun _ =>
      Linked.of_pure _
    refine Linked.bind (linked_appendLocal _) fun _ => Linked.ite (Linked.of_pure _) ?_
    exact Linked.bind linked_broadcastAppend fun _ => Linked.of_pure _
  | proposeJoint newVoters =>
    refine Linked.bind (Linked.ask_bind (fun _ _ _ => rfl) fun mask => ?_) fun _ => Linked.of_pure _
    cases mask with
    | none => exact Linked.of_pure _
    | some mask =>
      refine Linked.of_get fun n store err => Linked.ite (Linked.of_pure _) ?_
      refine Linked.bind (linked_ensurePeers mask) fun _ => ?_
      refine Linked.bind (linked_appendLocal _) fun _ => Linked.ite (Linked.of_pure _) ?_
      refine Linked.update_bind (fun _ _ _ => ⟨rfl, rfl, rfl⟩) fun _ => ?_
      exact Linked.bind linked_broadcastAppend fun _ => Linked.of_pure _
  | proposeFinal =>
    refine Linked.bind (Linked.of_get fun n store err => Linked.ite (Linked.of_pure _) ?_) fun _ =>
      Linked.of_pure _
    refine Linked.bind (linked_appendLocal _) fun _ => Linked.ite (Linked.of_pure _) ?_
    refine Linked.update_bind (fun _ _ _ => ⟨rfl, rfl, rfl⟩) fun _ => ?_
    exact Linked.bind linked_broadcastAppend fun _ => Linked.of_pure _
  | transferLeadership target =>
    refine Linked.bind (Linked.of_get fun n store err => Linked.ite (Linked.of_pure _) ?_) fun _ =>
      Linked.of_pure _
    refine Linked.ask_bind (fun _ _ _ => rfl) fun _ => ?_
    refine Linked.ite (Linked.of_pure _) (Linked.ite ?_ ?_)
    · exact Linked.bind (linked_appendToContext _ _) fun _ => Linked.of_pure _
    · exact Linked.bind (linked_send _) fun _ => Linked.of_pure _
  | startReadIndex context =>
    exact Linked.bind (linked_startReadIndex context) fun _ => Linked.of_pure _
  | applyEntries =>
    refine Linked.bind (Linked.of_get fun n store err => Linked.foldlM (fun dst index => ?_) _ _)
      fun _ => Linked.of_pure _
    refine Linked.update_bind (fun _ _ _ => ⟨rfl, rfl, rfl⟩) fun _ => ?_
    exact Linked.ask_bind (fun _ _ _ => rfl) fun _ => Linked.of_pure _
  | compact index state => exact Linked.bind (linked_compact index state) fun _ => Linked.of_pure _
  | drain =>
    refine Linked.bind ⟨fun s t hst => ?_, fun _ hs => hs, fun _ ht => ht⟩ fun _ => Linked.of_pure _
    obtain ⟨store, err, rfl, hrel⟩ := hst.eq_over
    exact Or.inl ⟨rfl, hrel, rfl⟩

end Stores

/-! ## Restarts -/

section Restarts

variable [Inhabited σ] [Inhabited τ] {B : Bond σ τ}

theorem linked_restoreLoop (l : List Nat) (f : Folded) :
    Linked B (restoreLoop l f) (restoreLoop l f) := by
  induction l generalizing f with
  | nil => exact Linked.of_pure _
  | cons index l ih =>
    refine Linked.ask_bind (fun _ _ _ => rfl) fun entry => Linked.of_get fun n store err => ?_
    rw [show (n.over store err).commit = n.commit from rfl]
    cases foldEntry n.commit index f entry with
    | none => exact Linked.of_pure _
    | some f => exact Linked.bind (linked_ensurePeers _) fun _ => ih f

theorem linked_restore : Linked B restore restore := by
  have hfold : Linked B restoreConfigurationState restoreConfigurationState := by
    refine Linked.of_get fun n store err => Linked.bind (linked_restoreLoop _ _) fun folded => ?_
    cases folded with
    | none => exact Linked.of_pure _
    | some f => exact Linked.update_bind (fun _ _ _ => ⟨rfl, rfl, rfl⟩) fun _ => Linked.of_pure _
  refine Linked.of_get fun n store err => Linked.ite linked_failStorage ?_
  exact Linked.bind hfold fun _ => Linked.ite linked_failStorage (Linked.of_pure _)

theorem linked_restoreSnapshot (hard : HardState) (snapshot : Snapshot) (suffix : List Entry) :
    Linked B (restoreSnapshot hard snapshot suffix) (restoreSnapshot hard snapshot suffix) := by
  refine Linked.update_bind (fun _ _ _ => ⟨rfl, rfl, rfl⟩) fun _ => ?_
  refine Linked.ite linked_failStorage (Linked.bind (linked_ensurePeers _) fun _ => ?_)
  exact Linked.update_bind (fun _ _ _ => ⟨rfl, rfl, rfl⟩) fun _ => linked_restore

omit [Inhabited σ] [Inhabited τ] in
/-- A program that never writes leaves both stores alone. -/
theorem built_over {p : NodeM σ Unit} {q : NodeM τ Unit} {s : Node σ} {b : τ}
    (h : ∀ B : Bond σ τ, Linked B p q) (err : Option StoreError) :
    (∃ s' err', built p s = .ok s' ∧ s'.store = s.store ∧
      built q (s.over b err) = .ok (s'.over b err')) ∨
    ∃ e, built p s = .error e ∧ built q (s.over b err) = .error e := by
  have hends := (h ⟨fun x y => x = s.store ∧ y = b, fun _ _ _ => False, fun _ => False, False⟩).ends
    s (s.over b err) ⟨⟨rfl, rfl⟩, rfl⟩
  unfold built
  cases hp : p s with
  | ok u s' =>
    cases hq : q (s.over b err) with
    | ok v t' =>
      rw [hp, hq] at hends
      obtain ⟨_, ⟨hs, ht⟩, heq⟩ | hno | ⟨hno, _⟩ := hends
      · refine Or.inl ⟨s', t'.storageErr, rfl, hs, ?_⟩
        rw [heq, ht]
      · exact hno.elim
      · exact hno.elim
    | error e t' =>
      rw [hp, hq] at hends
      obtain hno | ⟨hno, _⟩ := hends
      · exact hno.elim
      · exact hno.elim
  | error e s' =>
    cases hq : q (s.over b err) with
    | ok v t' =>
      rw [hp, hq] at hends
      obtain hno | ⟨hno, _⟩ := hends
      · exact hno.elim
      · exact hno.elim
    | error e' t' =>
      rw [hp, hq] at hends
      obtain ⟨rfl, _⟩ | hno | ⟨hno, _⟩ := hends
      · exact Or.inr ⟨e, rfl, rfl⟩
      · exact hno.elim
      · exact hno.elim

/-- Rebuilding a node looks at what was recovered, never at the store. -/
theorem recover_over (id : Nat) (peers : List Nat) (timeout : Nat) (a : σ) (b : τ)
    (recovery : Recovery) :
    (∃ s err, recover id peers timeout a recovery = .ok s ∧ s.store = a ∧
      recover id peers timeout b recovery = .ok (s.over b err)) ∨
    ∃ e, recover id peers timeout a recovery = .error e ∧
      recover id peers timeout b recovery = .error e := by
  unfold recover newRecoveredNodeWithSnapshot newRecoveredNode newNodeWithStore
  cases initialVoters id peers with
  | error e => exact Or.inr ⟨e, by split <;> rfl, by split <;> rfl⟩
  | ok voters =>
    split
    · exact built_over (s := {
        id := id, peers := peers, timeout := timeout, votersOld := voters, store := a })
        (fun B => linked_restoreSnapshot _ _ _) none
    · exact built_over (s := {
        id := id, peers := peers, timeout := timeout, votersOld := voters, store := a
        term := recovery.hard.term, votedFor := recovery.hard.votedFor
        commit := recovery.hard.commit, log := {} :: recovery.suffix }) (fun B => linked_restore) none

section Recovered

variable {id timeout : Nat} {peers : List Nat} {a : σ} {s : Node σ} {recovery : Recovery}

/-- A rebuilt node has the store that was opened. -/
theorem recover_store (h : recover id peers timeout a recovery = .ok s) : s.store = a := by
  rcases recover_over id peers timeout a a recovery with ⟨t, _, ht, hstore, _⟩ | ⟨e, he, _⟩
  · rw [h] at ht
    cases ht
    exact hstore
  · rw [h] at he
    cases he

/-- The same node is rebuilt over another store. -/
theorem recover_ok (b : τ) (h : recover id peers timeout a recovery = .ok s) :
    ∃ err, recover id peers timeout b recovery = .ok (s.over b err) := by
  rcases recover_over id peers timeout a b recovery with ⟨t, err, ht, _, ht'⟩ | ⟨e, he, _⟩
  · rw [h] at ht
    cases ht
    exact ⟨err, ht'⟩
  · rw [h] at he
    cases he

end Recovered

end Restarts

end Promtact.Raft
