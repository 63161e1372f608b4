import Promtact.Raft.Transport

/-!
# Store calls and messages

The rules for the small programs that every operation is made of: reading the
node, calling the store and sending. A store call moves the history when it takes
effect, and leaves a `Dead` node when it fails; a message may be sent when it
claims what the history supports.
-/

namespace Promtact.Raft

open QuorumLog GhostState
open Node (indexes)

variable {σ : Type} [LawfulStore σ] {K : Setting σ} {n : Nat} {α : Type}

/-- A panic leaves a node down. In a calm setting it is one of a full outbound
queue. -/
def Panics (K : Setting σ) (n : Nat) (_ : Panic) (g : Hist K) (s : Node σ) : Prop :=
  Down K n g.1 s ∧ (K.calm → s.outbound.length = outboundCapacity)

/-- Running a program of node `n`, with the histories of the setting as ghosts. -/
abbrev NWp (K : Setting σ) (n : Nat) (f : NodeM σ α) (Q : α → Hist K → Node σ → Prop)
    (g : Hist K) (s : Node σ) : Prop :=
  Wp (Hist.Rel K n) (Panics K n) f Q g s

variable {Q : α → Hist K → Node σ → Prop} {g g' : Hist K} {s : Node σ} {M : Mode} {j : Nat}

/-- Reading the node. -/
theorem wp_ask {f : Node σ → Except Panic α} (hd : Down K n g.1 s)
    (hcalm : K.calm → ∃ a, f s = .ok a) (hq : ∀ a, f s = .ok a → Q a g s) : NWp K n (ask f) Q g s := by
  cases hf : f s with
  | ok a =>
    have hrun : ask f s = .ok a s := by simp only [ask, hf]
    exact Wp.of_ok hrun (Std.Refl.refl g) (hq a hf)
  | error e =>
    have hrun : ask f s = .error e s := by simp only [ask, hf]
    refine Wp.of_error hrun (Std.Refl.refl g) ⟨hd, fun hk => ?_⟩
    obtain ⟨a, ha⟩ := hcalm hk
    rw [hf] at ha
    cases ha

/-! ## Store calls -/

/-- A store call that takes the history from `g` to `g'`. -/
theorem wp_tryStore {Q : Bool → Hist K → Node σ → Prop} {call : σ → Option StoreError × σ}
    {d : Durable} (g' : Hist K) (hat : Atomic LawfulStore.durable call s.store d)
    (hg : Hist.Rel K n g g')
    (hok : ∀ store, LawfulStore.durable store = d → Q true g' { s with store := store })
    (hkept : ∀ store err, LawfulStore.durable store = d → (call s.store).1 = some err →
      Q false g' (failed s store err))
    (hlost : ∀ store err, LawfulStore.durable store = LawfulStore.durable s.store →
      (call s.store).1 = some err → Q false g (failed s store err)) :
    NWp K n (tryStore call) Q g s := by
  cases hc : (call s.store).1 with
  | none => exact Wp.of_ok (tryStore_ok hc) hg (hok _ (hat.1 hc))
  | some err =>
    rcases hat.2 with hsame | hnew
    · exact Wp.of_ok (tryStore_error hc) (Std.Refl.refl g) (hlost _ err hsame hc)
    · exact Wp.of_ok (tryStore_error hc) hg (hkept _ err hnew hc)

/-- A node that is stopped keeps its past. -/
theorem dead_of_failed {h h' : History Nat Entry} {store : σ} {err : StoreError}
    (hd : Down K n h s) (hset : K.Traced → s.Settled K h n)
    (hcov : (LawfulStore.durable s.store).snapshot.lastIndex ≤
      (LawfulStore.durable store).snapshot.lastIndex)
    (gr : History.Grows n h h') (hdur : Dur K h' n (LawfulStore.durable store))
    (hr : ¬ K.reliable) : Dead K n h' (failed s store err) where
  own := hd.own
  past := hd.past.grow gr
  commit_le := Nat.le_trans hd.commit_le (gr.commit_le' n)
  running := (absurd · hr)
  dur := hdur
  stopped := rfl
  state_eq := rfl
  silent := rfl
  unreliable := hr
  settled ht := ((hset ht).grow gr).imp_left fun hb => Nat.le_trans hb hcov

/-- A store call of a node whose memory does not run ahead of its store. -/
theorem wp_tryStore_dead {Q : Bool → Hist K → Node σ → Prop} {call : σ → Option StoreError × σ}
    {d : Durable} (g' : Hist K) (hd : Down K n g.1 s) (hset : K.Traced → s.Settled K g.1 n)
    (hat : Atomic LawfulStore.durable call s.store d)
    (hcov : (LawfulStore.durable s.store).snapshot.lastIndex ≤ d.snapshot.lastIndex)
    (hrel : K.reliable → (call s.store).1 = none) (hg : Hist.Rel K n g g')
    (hdur : Dur K g'.1 n d)
    (hok : ∀ store, LawfulStore.durable store = d → Q true g' { s with store := store })
    (hdead : ∀ g' s', Dead K n g'.1 s' → Q false g' s') : NWp K n (tryStore call) Q g s := by
  have hno : ∀ err, (call s.store).1 = some err → ¬ K.reliable := by
    intro err hc hr
    rw [hrel hr] at hc
    cases hc
  refine wp_tryStore g' hat hg hok ?_ ?_
  · intro store err hst hc
    exact hdead _ _ (dead_of_failed hd hset (by rw [hst]; exact hcov) hg (by rw [hst]; exact hdur)
      (hno err hc))
  · intro store err hst hc
    exact hdead _ _ (dead_of_failed hd hset (by rw [hst]) (History.Grows.refl n g.1)
      (by rw [hst]; exact hd.dur) (hno err hc))

/-- With fixed voters a running node has the initial ones. -/
theorem LiveAt.voters_fixed {h : History Nat Entry} (hs : Sane K h) (hl : LiveAt K n M j h s)
    (hf : ¬ K.reconf) : s.votersOld = K.voters ∧ s.votersNew = 0 := by
  have hc := hl.configured.1
  rw [hs.config_fixed hf ((hs.valid.log_sound n).take j)] at hc
  exact ⟨(Prod.mk.inj hc).1.symm, (Prod.mk.inj hc).2.symm⟩

/-- The sender of a message is a node ID. -/
theorem MsgInv.nodeBit {h : History Nat Entry} {m : Message} (hm : MsgInv K h m) :
    Raft.nodeBit m.fromID = .ok (bitOf m.fromID) :=
  nodeBit_of_range hm.voter.1 hm.voter.2.1

theorem LiveAt.isVoter_sender {h : History Nat Entry} {m : Message} (hl : LiveAt K n M j h s)
    (hm : MsgInv K h m) : ∃ b, s.isVoter m.fromID = .ok b :=
  hl.logged.view.isVoter_ok hm.voter.1 hm.voter.2.1

/-! ## Sending -/

/-- Only messages and next indexes lie between the two states. -/
def Sends (s s' : Node σ) : Prop :=
  ∃ next outbound, s' = { s with next := next, outbound := outbound }

omit [LawfulStore σ] in
theorem Sends.refl (s : Node σ) : Sends s s := ⟨s.next, s.outbound, rfl⟩

omit [LawfulStore σ] in
theorem Sends.trans {s s' s'' : Node σ} (h : Sends s s') (h' : Sends s' s'') : Sends s s'' := by
  obtain ⟨_, _, rfl⟩ := h
  obtain ⟨next, outbound, rfl⟩ := h'
  exact ⟨next, outbound, rfl⟩

theorem wp_send {Q : Unit → Hist K → Node σ → Prop} {m : Message}
    (hl : LiveAt K n M j g.1 s) (hm : MsgInv K g.1 m)
    (hq : ∀ s', Sends s s' → LiveAt K n M j g.1 s' → Q ⟨⟩ g s') :
    NWp K n (send m) Q g s := by
  refine Wp.bind (Wp.of_get (Wp.ite (fun hfull => ?_) fun _ => ?_))
  · exact Wp.of_throw ⟨hl.down g.2, fun _ => hfull⟩
  · refine Wp.of_set (hq _ ⟨_, _, rfl⟩ { hl with out := ?_ })
    intro m' hm'
    rcases List.mem_append.mp hm' with hold | hnew
    · exact hl.out m' hold
    · rw [List.mem_singleton] at hnew
      rwa [hnew]

/-- The leader's own log is the log of its reign. -/
theorem Reigns.log {h : History Nat Entry} (hs : Sane K h) (hr : Reigns h n) :
    ∃ r, h.lead (h.term n) = some r ∧ r.who = n ∧ r.log = h.log n := by
  obtain ⟨r, hr, hw⟩ := hr
  refine ⟨r, hr, hw, ?_⟩
  rw [← hs.valid.lead_log hr (by rw [hw]), hw]

/-- What a leader may put into an append. -/
theorem append_claim {h : History Nat Entry} {m : Message} (hs : Sane K h) (hr : Reigns h n)
    (htype : m.type = .append) (hfrom : m.fromID = n) (hterm : m.term = h.term n)
    (hidx : m.logIndex ≤ (h.log n).length)
    (hlt : K.P.termAt (h.log n) m.logIndex = m.logTerm)
    (hent : m.hasEntry = true → (h.log n)[m.logIndex]? = some m.entry)
    (hcom : m.commit = h.commit n)
    (halone : K.tidy → m.hasEntry = true → Single K (h.log n) (h.commit n))
    (hctx : K.fresh → m.context ≠ 0 →
      ∃ h₀, K.started n m.context = some h₀ ∧ h₀.term n = h.term n) : Claim K h m := by
  obtain ⟨r, hr, hw, hlog⟩ := hr.log hs
  unfold Claim
  rw [htype]
  refine ⟨r, ?_⟩
  exact {
    lead := by rw [hterm]; exact hr
    who := by rw [hw, hfrom]
    index_le := by rw [hlog]; exact hidx
    term_eq := by rw [hlog]; exact hlt
    entry_eq := by rw [hlog]; exact hent
    commit_le := by rw [hlog, hcom]; exact hs.valid.commit_le n
    committed := by rw [hlog, hcom, hterm]; exact hs.valid.commit_committed n
    alone := by
      rw [hlog, hcom]
      intro ht he hce a ha hca
      by_contra hgt
      exact halone ht he a (m.logIndex + 1) (by omega) (by omega) hca ⟨m.entry, hent he, hce⟩
    context := by rw [hfrom, hterm]; exact hctx }

theorem wp_appendToContext {Q : Unit → Hist K → Node σ → Prop} {p : Nat} {context : Word}
    (hl : LiveAt K n M j g.1 s) (hM : M.single) (hr : Reigns g.1 n) (hp : p ≠ n)
    (hctx : K.fresh → context ≠ 0 →
      ∃ h₀, K.started n context = some h₀ ∧ h₀.term n = g.1.term n)
    (hq : ∀ s', Sends s s' → LiveAt K n M j g.1 s' → Q ⟨⟩ g s') :
    NWp K n (appendToContext p context) Q g s := by
  obtain ⟨hid, hvoter, _, _⟩ := hl.named
  have hterm : s.term = g.1.term n := hl.voted.1.symm
  refine Wp.bind (Wp.of_get (Wp.ite (fun _ => ?_) fun hnext => ?_))
  · -- the follower is behind the base
    have hsnap := hl.dur.snapshot
    rw [← hl.synced.2.1] at hsnap
    refine wp_send hl ⟨by rwa [hid], by simpa [hid] using hp.symm, fun hold => ⟨?_, ?_⟩, ?_⟩ hq
    · simpa [Reigns, hid, hterm] using hr
    · rcases hsnap with hempty | hfact
      · simp [hempty] at hold
      · simpa [Message.asSnapshot, hterm] using hfact.snapFact
    · rcases hsnap with hempty | ⟨y, _, _, hdesc, _⟩
      · exact Or.inl (by rw [hempty])
      · exact Or.inr ⟨y, hdesc.2.2.2⟩
  · refine Wp.bind (Wp.of_modify (Wp.bind (Wp.of_get ?_)))
    -- the adjusted next index
    obtain ⟨s₁, hs₁⟩ : ∃ s₁ : Node σ, s₁ = if s.next p > s.lastIndex + 1 then
        { s with next := Function.update s.next p (s.lastIndex + 1) } else s := ⟨_, rfl⟩
    have hl₁ : LiveAt K n M j g.1 s₁ := by
      rw [hs₁]; split
      · exact { hl with }
      · exact hl
    have hsends : Sends s s₁ := by
      rw [hs₁]; split
      · exact ⟨_, _, rfl⟩
      · exact Sends.refl s
    have hsame : s₁.id = s.id ∧ s₁.term = s.term ∧ s₁.baseIndex = s.baseIndex ∧
        s₁.lastIndex = s.lastIndex := by
      obtain ⟨_, _, hs₁⟩ := hsends
      rw [hs₁]
      exact ⟨rfl, rfl, rfl, rfl⟩
    have hrange : s.baseIndex < s₁.next p ∧ s₁.next p ≤ s.lastIndex + 1 := by
      have hview := hl.logged.view
      have hbase := hview.1
      rw [← hview.lastIndex] at hbase
      rw [hs₁]; split
      · simp; omega
      · omega
    rw [← hs₁]
    obtain ⟨hid₁, hterm₁, hbase₁, hlast₁⟩ := hsame
    have hview := hl₁.logged.view
    have hlast : s.lastIndex = (g.1.log n).length := by rw [← hlast₁]; exact hview.lastIndex
    have hnz : ¬ s₁.next p = 0 := by omega
    rw [if_neg hnz]
    refine Wp.bind (wp_ask (hl₁.down g.2) (fun _ => ⟨_, hview.termAtMust (by omega) (by omega)⟩) ?_)
    intro prevTerm hprev
    rw [hview.termAtMust (by omega) (by omega)] at hprev
    cases hprev
    have hclaim : ∀ (entry : Entry) (hasEntry : Bool),
        (hasEntry = true → (g.1.log n)[s₁.next p - 1]? = some entry) →
        MsgInv K g.1 {
          type := .append, fromID := s₁.id, toID := p, term := s₁.term
          logIndex := s₁.next p - 1, logTerm := K.P.termAt (g.1.log n) (s₁.next p - 1)
          entry := entry, hasEntry := hasEntry, commit := s₁.commit, context := context } := by
      intro entry hasEntry hent
      refine ⟨by rwa [hid₁, hid], by simpa [hid₁, hid] using hp.symm, ?_, Or.inl rfl⟩
      exact append_claim g.2 hr rfl (hid₁.trans hid) (hterm₁.trans hterm)
        (by show s₁.next p - 1 ≤ _; omega) rfl hent hl₁.logged.commit_eq.symm
        (fun ht _ => hl.single ht hM) hctx
    have hq₁ : ∀ s', Sends s₁ s' → LiveAt K n M j g.1 s' → Q ⟨⟩ g s' :=
      fun s' hs' => hq s' (hsends.trans hs')
    refine Wp.ite (fun hin => ?_) fun _ => ?_
    · refine Wp.bind (wp_ask (hl₁.down g.2) (fun _ => hview.entryAt_ok (by omega) (by omega)) ?_)
      intro entry hentry
      have hget : (g.1.log n)[s₁.next p - 1]? = some entry := by
        have hlt : s₁.next p - 1 < (g.1.log n).length := by omega
        have hat := hview.entryAt (i := s₁.next p) (by omega) (List.getElem?_eq_getElem hlt)
        rw [hat] at hentry
        cases hentry
        exact List.getElem?_eq_getElem hlt
      exact wp_send hl₁ (hclaim entry true fun _ => hget) hq₁
    · exact wp_send hl₁ (hclaim {} false (by simp)) hq₁

theorem wp_appendTo {Q : Unit → Hist K → Node σ → Prop} {p : Nat}
    (hl : LiveAt K n M j g.1 s) (hM : M.single) (hr : Reigns g.1 n) (hp : p ≠ n)
    (hq : ∀ s', Sends s s' → LiveAt K n M j g.1 s' → Q ⟨⟩ g s') :
    NWp K n (appendTo p) Q g s :=
  wp_appendToContext hl hM hr hp (fun _ h0 => absurd rfl h0) hq

/-- A loop of sends over the peers. -/
theorem wp_peers {Q : Unit → Hist K → Node σ → Prop} {k : Nat → NodeM σ Unit} {l : List Nat}
    (hk : ∀ p ∈ l, ∀ s', Sends s s' → LiveAt K n M j g.1 s' →
      NWp K n (k p) (fun _ g'' s'' => g'' = g ∧ Sends s s'' ∧ LiveAt K n M j g.1 s'') g s')
    (hl : LiveAt K n M j g.1 s)
    (hq : ∀ s', Sends s s' → LiveAt K n M j g.1 s' → Q ⟨⟩ g s') :
    NWp K n (l.forM k) Q g s := by
  have hloop := Wp.forM (R := Hist.Rel K n) (C := Panics K n) (k := k) (l := l)
    (I := fun g' s' => g' = g ∧ Sends s s' ∧ LiveAt K n M j g.1 s') (g := g) (s := s)
    (by
      rintro p hp g' s' ⟨rfl, hf, hl'⟩
      exact hk p hp s' hf hl') ⟨rfl, Sends.refl s, hl⟩
  refine hloop.mono ?_
  rintro _ g' s' ⟨rfl, hf, hl'⟩
  exact hq s' hf hl'

theorem wp_broadcastAppend {Q : Unit → Hist K → Node σ → Prop}
    (hl : LiveAt K n M j g.1 s) (hM : M.single) (hr : Reigns g.1 n)
    (hq : ∀ s', Sends s s' → LiveAt K n M j g.1 s' → Q ⟨⟩ g s') :
    NWp K n broadcastAppend Q g s := by
  refine Wp.bind (Wp.of_get (wp_peers ?_ hl hq))
  intro p hp s' hf hl'
  obtain ⟨h0, h64, hne⟩ := hl.named.peer p hp
  refine Wp.bind (wp_ask (hl'.down g.2) (fun _ => hl'.logged.view.isVoter_ok h0 h64) fun b _ =>
    Wp.ite (fun _ => ?_) fun _ => ?_)
  · exact wp_appendTo hl' hM hr hne fun s'' hf' hl'' =>
      ⟨rfl, hf.trans hf', hl''⟩
  · exact Wp.of_pure ⟨rfl, hf, hl'⟩

end Promtact.Raft
