import Promtact.Paxos.Agreement

/-!
# Paxos runs

What holds in every run of a cluster. Agreement needs nothing from the net. When the
net does not duplicate, a node gets the accept of a number at most once (`Once`), so
that it accepts a number at most once, and counting acceptances counts acceptors.
-/

namespace Promtact.Paxos

variable {size : Nat}

/-! ## One accept for each number and node -/

def isAccept (a b : Nat) (m : Message) : Bool := m.kind = .accept && m.toID = a && m.num = b

/-- The accepts of number `b` for node `a` that are on their way or were honoured,
when `p` sends them. -/
def copies (w : World) (p a b : Nat) : Nat :=
  w.net.countP (isAccept a b) + (w.nodes p).outbound.countP (isAccept a b) +
    (w.nodes a).accepts.countP (·.num = b)

def Once (size : Nat) (w : World) : Prop :=
  ∀ p a b, IsMember size p → Owns size p b → copies w p a b ≤ 1

/-- An operation of node `p` sends and accepts nothing but at number `c`, and there at
most one accept for each other node. -/
structure Adds (p c : Nat) (n n' : Node) : Prop where
  sends : ∀ a b, b ≠ c → n'.outbound.countP (isAccept a b) = n.outbound.countP (isAccept a b)
  accepts : ∀ b, b ≠ c → n'.accepts.countP (·.num = b) = n.accepts.countP (·.num = b)
  sends_new : ∀ a, n'.outbound.countP (isAccept a c) ≤
    n.outbound.countP (isAccept a c) + if a = p then 0 else 1
  accepts_new : n'.accepts.countP (·.num = c) ≤ n.accepts.countP (·.num = c) + 1

/-- An operation that sends and accepts nothing at all. -/
structure Quiet (n n' : Node) : Prop where
  sends : ∀ a b, n'.outbound.countP (isAccept a b) = n.outbound.countP (isAccept a b)
  accepts : n'.accepts = n.accepts

section Node

variable {p c : Nat} {n n' n'' : Node}

theorem Quiet.refl : Quiet n n := ⟨fun _ _ => rfl, rfl⟩

theorem Quiet.trans (h : Quiet n n') (h' : Quiet n' n'') : Quiet n n'' :=
  ⟨fun a b => (h'.sends a b).trans (h.sends a b), h'.accepts.trans h.accepts⟩

/-- Messages other than accepts are sent. -/
theorem Quiet.send {out : List Message} (hout : ∀ m ∈ out, m.kind ≠ .accept) :
    Quiet n { n with outbound := n.outbound ++ out } := by
  refine ⟨fun a b => ?_, rfl⟩
  have hzero : out.countP (isAccept a b) = 0 := by
    rw [List.countP_eq_zero]
    intro m hm
    simp [isAccept, hout m hm]
  rw [List.countP_append, hzero, Nat.add_zero]

theorem onPrepare_quiet (num : Nat) : Quiet n (n.onPrepare num).2 := by
  unfold Node.onPrepare
  split
  · exact Quiet.refl
  · exact ⟨fun _ _ => rfl, rfl⟩

theorem countPromise_quiet (fromID accNum : Nat) (accVal : Value) (hasAcc : Bool) :
    Quiet n (n.countPromise fromID accNum accVal hasAcc) := by
  simp only [Node.countPromise]
  split
  · exact ⟨fun _ _ => rfl, rfl⟩
  · exact ⟨fun _ _ => rfl, rfl⟩

theorem acceptOwn_fields :
    n.acceptOwn.outbound = n.outbound ∧ n.acceptOwn.myNum = n.myNum ∧
      n.acceptOwn.peers = n.peers ∧
      (n.acceptOwn.accepts = n.accepts ∨
        n.acceptOwn.accepts = n.accepts ++ [⟨n.myNum, n.myVal⟩]) := by
  simp only [Node.acceptOwn, Node.onAccept]
  split
  · exact ⟨rfl, rfl, rfl, Or.inl rfl⟩
  · exact ⟨rfl, rfl, rfl, Or.inr rfl⟩

theorem count_peers_le (a : Nat) :
    ((members size).filter (· ≠ p)).count a ≤ if a = p then 0 else 1 := by
  split
  · rename_i hap
    have hout : a ∉ (members size).filter (· ≠ p) := by simp [hap]
    rw [List.count_eq_zero_of_not_mem hout]
  · have hnodup : (members size).Nodup := by
      rw [members]
      exact List.nodup_range'
    exact (List.nodup_iff_count_le_one.mp (hnodup.filter _)) a

theorem beginAccept_adds (hpeers : n.peers = (members size).filter (· ≠ p)) :
    Adds p n.myNum n n.beginAccept := by
  have hadopt : n.adopt.outbound = n.outbound ∧ n.adopt.myNum = n.myNum ∧
      n.adopt.peers = n.peers ∧ n.adopt.accepts = n.accepts := by
    rw [adopt_eq]
    exact ⟨rfl, rfl, rfl, rfl⟩
  obtain ⟨hout, hnum, hpeers', hacc⟩ :=
    acceptOwn_fields (n := { n.adopt with phase := .accepting, acceptMask := 0 })
  simp only [Node.beginAccept]
  generalize Node.acceptOwn { n.adopt with phase := .accepting, acceptMask := 0 } = n₁
    at hout hnum hpeers' hacc ⊢
  simp only [hadopt] at hout hnum hpeers' hacc
  -- the node's own acceptance
  have hacc₁ : ∀ b, n₁.accepts.countP (·.num = b) ≤ n.accepts.countP (·.num = b) +
      (if b = n.myNum then 1 else 0) ∧
      (b ≠ n.myNum → n₁.accepts.countP (·.num = b) = n.accepts.countP (·.num = b)) := by
    intro b
    rcases hacc with hacc | hacc
    · rw [hacc]
      exact ⟨by omega, fun _ => rfl⟩
    · rw [hacc]
      by_cases hb : b = n.myNum
      · simp [hb]
      · simp [hb, Ne.symm hb]
  split
  · exact ⟨fun a b _ => by rw [hout], fun b hb => (hacc₁ b).2 hb, fun a => by rw [hout]; omega,
      by simpa using (hacc₁ n.myNum).1⟩
  · have hsent : ∀ a b, ((n₁.peers.map fun peer =>
          ({ kind := .accept, fromID := n₁.id, toID := peer, num := n₁.myNum, val := n₁.myVal } :
            Message)).countP (isAccept a b)) = if b = n.myNum then n.peers.count a else 0 := by
      intro a b
      rw [List.countP_map, hnum, hpeers']
      by_cases hb : b = n.myNum
      · rw [if_pos hb]
        refine List.countP_congr fun q _ => ?_
        simp [isAccept, hb]
      · rw [if_neg hb, List.countP_eq_zero]
        simp [isAccept, Ne.symm hb]
    refine ⟨fun a b hb => ?_, fun b hb => (hacc₁ b).2 hb, fun a => ?_,
      by simpa using (hacc₁ n.myNum).1⟩
    · simp only [List.countP_append, hsent, if_neg hb, hout, Nat.add_zero]
    · simp only [List.countP_append, hsent, if_true, hout]
      rw [hpeers]
      exact Nat.add_le_add_left (count_peers_le a) _

theorem Adds.of_quiet (h : Quiet n n') : Adds p c n n' :=
  ⟨fun a b _ => h.sends a b, fun b _ => by rw [h.accepts],
    fun a => by rw [h.sends]; exact Nat.le_add_right _ _, by rw [h.accepts]; exact Nat.le_add_right _ _⟩

theorem Adds.quiet_left (h : Quiet n n') (ha : Adds p c n' n'') : Adds p c n n'' where
  sends a b hb := (ha.sends a b hb).trans (h.sends a b)
  accepts b hb := (ha.accepts b hb).trans (by rw [h.accepts])
  sends_new a := by
    rw [← h.sends]
    exact ha.sends_new a
  accepts_new := by
    rw [← h.accepts]
    exact ha.accepts_new

theorem Adds.quiet_right (ha : Adds p c n n') (h : Quiet n' n'') : Adds p c n n'' where
  sends a b hb := (h.sends a b).trans (ha.sends a b hb)
  accepts b hb := by
    rw [h.accepts]
    exact ha.accepts b hb
  sends_new a := by
    rw [h.sends]
    exact ha.sends_new a
  accepts_new := by
    rw [h.accepts]
    exact ha.accepts_new

theorem recordPromise_adds (hpeers : n.peers = (members size).filter (· ≠ p))
    (fromID accNum : Nat) (accVal : Value) (hasAcc : Bool) :
    Adds p n.myNum n (n.recordPromise fromID accNum accVal hasAcc) := by
  have hquiet := countPromise_quiet (n := n) fromID accNum accVal hasAcc
  have hsame : (n.countPromise fromID accNum accVal hasAcc).myNum = n.myNum ∧
      (n.countPromise fromID accNum accVal hasAcc).peers = n.peers := by
    simp only [Node.countPromise]
    split
    · exact ⟨rfl, rfl⟩
    · exact ⟨rfl, rfl⟩
  simp only [Node.recordPromise]
  split
  · exact Adds.of_quiet hquiet
  · have hbegin := beginAccept_adds (hsame.2.trans hpeers)
    rw [hsame.1] at hbegin
    exact hbegin.quiet_left hquiet

theorem propose_adds (hpeers : n.peers = (members size).filter (· ≠ p)) (val : Value) :
    Adds p (n.newRound val).myNum n (n.propose val) := by
  have hround : Quiet n (n.newRound val) := ⟨fun _ _ => rfl, rfl⟩
  have hprepare := onPrepare_quiet (n := n.newRound val) (n.newRound val).myNum
  have hsame : ((n.newRound val).onPrepare (n.newRound val).myNum).2.myNum = (n.newRound val).myNum ∧
      ((n.newRound val).onPrepare (n.newRound val).myNum).2.peers = n.peers := by
    unfold Node.onPrepare
    split
    · exact ⟨rfl, rfl⟩
    · exact ⟨rfl, rfl⟩
  simp only [Node.propose]
  generalize (n.newRound val).onPrepare (n.newRound val).myNum = r at hprepare hsame ⊢
  obtain ⟨answer, n₁⟩ := r
  obtain ⟨hnum, hpeers'⟩ := hsame
  have hrecord : Adds p n₁.myNum n₁ (if answer.ok = true then
      n₁.recordPromise n₁.id answer.accNum answer.accVal answer.hasAcc else n₁) := by
    split
    · exact recordPromise_adds (hpeers'.trans hpeers) _ _ _ _
    · exact Adds.of_quiet Quiet.refl
  rw [hnum] at hrecord
  refine (hrecord.quiet_left (hround.trans hprepare)).quiet_right (Quiet.send fun m hm => ?_)
  obtain ⟨q, _, rfl⟩ := List.mem_map.mp hm
  exact Kind.noConfusion

end Node

/-! ## Worlds -/

section Worlds

variable {passed : Value → Prop} {w w' : World} {P : Proposals} {p c : Nat} {n n' : Node}

theorem Once.quiet (ho : Once size (w.set p n)) (h : Quiet n n') : Once size (w.set p n') := by
  intro q a b hq hown
  have hold := ho q a b hq hown
  have hsame : copies (w.set p n') q a b = copies (w.set p n) q a b := by
    have hout : ((w.set p n').nodes q).outbound.countP (isAccept a b) =
        ((w.set p n).nodes q).outbound.countP (isAccept a b) := by
      by_cases hqp : q = p
      · simp [hqp, h.sends]
      · simp [hqp]
    have hacc : ((w.set p n').nodes a).accepts = ((w.set p n).nodes a).accepts := by
      by_cases hap : a = p
      · simp [hap, h.accepts]
      · simp [hap]
    unfold copies
    rw [hout, hacc]
    rfl
  rw [hsame]
  exact hold

/-- A number without a proposal has no accepts. -/
theorem Inv.copies_fresh (hi : Inv size passed w P) (hfresh : ∀ v, ¬ P c v) (a : Nat) :
    w.net.countP (isAccept a c) = 0 ∧
      (∀ q, IsMember size q → (w.nodes q).outbound.countP (isAccept a c) = 0) ∧
      (w.nodes a).accepts.countP (·.num = c) = 0 := by
  have hmessage : ∀ m, MessageInv size (synod w P) m → ¬ isAccept a c m = true := by
    intro m hm hacc
    obtain ⟨⟨hkind, _⟩, rfl⟩ : (m.kind = .accept ∧ m.toID = a) ∧ m.num = c := by
      simpa [isAccept] using hacc
    exact hfresh _ (hm.accept hkind).1
  refine ⟨List.countP_eq_zero.mpr fun m hm => hmessage m (hi.net m hm), fun q hq =>
    List.countP_eq_zero.mpr fun m hm => hmessage m (hi.outbound q hq m hm),
    List.countP_eq_zero.mpr fun x hx hnum => ?_⟩
  obtain rfl : x.num = c := by simpa using hnum
  exact hfresh x.val (hi.valid.backed a _ _ hx)

/-- Node `p` starts phase two at a number of its own that has no proposal. -/
theorem Once.adds (ho : Once size (w.set p n)) (hi : Inv size passed (w.set p n) P)
    (hp : IsMember size p) (hown : Owns size p c) (hfresh : ∀ v, ¬ P c v) (h : Adds p c n n') :
    Once size (w.set p n') := by
  intro q a b hq hb
  by_cases hbc : b = c
  · subst hbc
    obtain rfl : q = p := Owns.unique hq hp hb hown
    obtain ⟨hnet, hout, hacc⟩ := hi.copies_fresh hfresh a
    have hsent := h.sends_new a
    have haccepted := h.accepts_new
    have hout' := hout q hq
    rw [set_nodes_self] at hout'
    unfold copies
    rw [set_nodes_self]
    change ((w.set q n).net.countP (isAccept a b)) + _ + _ ≤ 1
    by_cases hap : a = q
    · rw [hap, set_nodes_self] at hacc ⊢
      rw [hap] at hnet hsent hout'
      rw [if_pos rfl] at hsent
      omega
    · rw [set_nodes_of_ne hap] at hacc ⊢
      rw [if_neg hap] at hsent
      omega
  · have hold := ho q a b hq hb
    have hout : ((w.set p n').nodes q).outbound.countP (isAccept a b) =
        ((w.set p n).nodes q).outbound.countP (isAccept a b) := by
      by_cases hqp : q = p
      · simp [hqp, h.sends a b hbc]
      · simp [hqp]
    have hacc : ((w.set p n').nodes a).accepts.countP (·.num = b) =
        ((w.set p n).nodes a).accepts.countP (·.num = b) := by
      by_cases hap : a = p
      · simp [hap, h.accepts b hbc]
      · simp [hap]
    unfold copies at hold ⊢
    rw [hout, hacc]
    exact hold

theorem Once.recordPromise {fromID accNum : Nat} {accVal : Value} {hasAcc : Bool}
    (ho : Once size (w.set p n)) (hi : Inv size passed (w.set p n) P) (hp : IsMember size p)
    (hphase : n.phase = .preparing) :
    Once size (w.set p (n.recordPromise fromID accNum accVal hasAcc)) := by
  obtain ⟨_, hprop, _, _⟩ := hi.self hp
  have hown : Owns size p n.myNum := hprop.owns (by simp [hphase])
  exact ho.adds hi hp hown (fun v hv => Nat.lt_irrefl _ (hprop.below hphase _ v hv hown))
    (recordPromise_adds hprop.peers_eq _ _ _ _)

theorem Once.propose {val : Value} (ho : Once size (w.set p n))
    (hi : Inv size passed (w.set p n) P) (hp : IsMember size p) :
    Once size (w.set p (n.propose val)) := by
  obtain ⟨_, hprop, _, _⟩ := hi.self hp
  have hown : Owns size p (n.newRound val).myNum :=
    ⟨(n.newRound val).round, by simp only [Node.newRound, hprop.id_eq, hprop.size_eq]⟩
  refine ho.adds hi hp hown (fun v hv => ?_) (propose_adds hprop.peers_eq val)
  -- the number is above every own proposal
  obtain ⟨hactive, hle⟩ := hprop.fresh _ v hv hown
  have hgt := (newRound_num_gt hp hprop.id_eq hprop.size_eq val).2
  rw [hprop.num_eq hactive] at hle
  omega

theorem Once.tick (ho : Once size (w.set p n)) (hi : Inv size passed (w.set p n) P)
    (hp : IsMember size p) : Once size (w.set p n.tick) := by
  obtain ⟨hacc, hprop, hout, hval⟩ := hi.self hp
  simp only [Node.tick]
  split
  · exact ho
  have hi' : Inv size passed (w.set p { n with elapsed := n.elapsed + 1 }) P :=
    hi.update hp rfl rfl { hacc with } { hprop with } hout hval
  have ho' : Once size (w.set p { n with elapsed := n.elapsed + 1 }) :=
    ho.quiet ⟨fun _ _ => rfl, rfl⟩
  split
  · exact ho'.propose hi' hp
  · exact ho'

/-- A message other than an accept arrives. -/
theorem Once.step {m : Message} (ho : Once size (w.set p n)) (hi : Inv size passed (w.set p n) P)
    (hp : IsMember size p) (hkind : m.kind ≠ .accept) : Once size (w.set p (n.step m)) := by
  unfold Node.step
  split
  · refine (ho.quiet (onPrepare_quiet m.num)).quiet (Quiet.send fun m' hm' => ?_)
    rw [List.mem_singleton.mp hm']
    nofun
  · split
    · exact ho
    · rename_i hlive
      obtain ⟨_, hphase, _⟩ : m.num = n.myNum ∧ n.phase = .preparing ∧ m.ok = true := by
        simpa [and_assoc] using hlive
      exact ho.recordPromise hi hp hphase
  · exact absurd ‹_› hkind
  · split
    · exact ho
    · simp only
      split
      · exact ho.quiet ⟨fun _ _ => rfl, rfl⟩
      · exact ho.quiet ⟨fun _ _ => rfl, rfl⟩

theorem step_accept_counts {m : Message} (hkind : m.kind = .accept) :
    (∀ a b, (n.step m).outbound.countP (isAccept a b) = n.outbound.countP (isAccept a b)) ∧
      ∀ b, (n.step m).accepts.countP (·.num = b) ≤
        n.accepts.countP (·.num = b) + if m.num = b then 1 else 0 := by
  simp only [Node.step, hkind, Node.onAccept]
  split
  · refine ⟨fun a b => ?_, fun b => Nat.le_add_right _ _⟩
    simp [Node.send, isAccept]
  · refine ⟨fun a b => ?_, fun b => ?_⟩
    · simp [Node.send, isAccept]
    · simp [Node.send, List.countP_append, List.countP_singleton]

theorem countP_eraseIdx {net : List Message} {i : Nat} {m : Message} (hm : net[i]? = some m)
    (q : Message → Bool) :
    net.countP q = (net.eraseIdx i).countP q + if q m then 1 else 0 := by
  obtain ⟨hlt, rfl⟩ := List.getElem?_eq_some_iff.mp hm
  rw [← (List.getElem_cons_eraseIdx_perm hlt).countP_eq, List.countP_cons]

/-- An accept arrives, and is gone from the net. -/
theorem Once.deliver_accept {m : Message} {i : Nat} (ho : Once size w) (hm : w.net[i]? = some m)
    (hkind : m.kind = .accept) :
    Once size { w.set m.toID ((w.nodes m.toID).step m) with net := w.net.eraseIdx i } := by
  intro q a b hq hown
  have hold := ho q a b hq hown
  obtain ⟨hout, hacc⟩ := step_accept_counts (n := w.nodes m.toID) hkind
  have hnet := countP_eraseIdx hm (isAccept a b)
  have hout' : ((w.set m.toID ((w.nodes m.toID).step m)).nodes q).outbound.countP (isAccept a b) =
      (w.nodes q).outbound.countP (isAccept a b) := by
    by_cases hqp : q = m.toID
    · rw [hqp, set_nodes_self, hout]
    · rw [set_nodes_of_ne hqp]
  have hacc' : ((w.set m.toID ((w.nodes m.toID).step m)).nodes a).accepts.countP (·.num = b) ≤
      (w.nodes a).accepts.countP (·.num = b) + if isAccept a b m then 1 else 0 := by
    by_cases hap : a = m.toID
    · rw [hap, set_nodes_self]
      simpa [isAccept, hkind] using hacc b
    · rw [set_nodes_of_ne hap]
      exact Nat.le_add_right _ _
  unfold copies at hold ⊢
  rw [hout']
  change (w.net.eraseIdx i).countP (isAccept a b) + _ +
    ((w.set m.toID ((w.nodes m.toID).step m)).nodes a).accepts.countP (·.num = b) ≤ 1
  omega

theorem Once.drain (ho : Once size w) (hi : Inv size passed w P) (hp : IsMember size p) :
    Once size { w.set p { w.nodes p with outbound := [] } with
      net := w.net ++ (w.nodes p).outbound } := by
  intro q a b hq hown
  have hold := ho q a b hq hown
  have hacc : ((w.set p { w.nodes p with outbound := [] }).nodes a).accepts =
      (w.nodes a).accepts := by
    by_cases hap : a = p
    · simp [hap]
    · simp [hap]
  unfold copies at hold ⊢
  rw [hacc, List.countP_append]
  by_cases hqp : q = p
  · subst hqp
    simp only [set_nodes_self, List.countP_nil]
    omega
  · -- a node sends accepts of its own numbers only
    have hnone : (w.nodes p).outbound.countP (isAccept a b) = 0 := by
      rw [List.countP_eq_zero]
      intro m hm hacc
      obtain ⟨⟨hkind, _⟩, rfl⟩ : (m.kind = .accept ∧ m.toID = a) ∧ m.num = b := by
        simpa [isAccept] using hacc
      have hfrom := (hi.proposer p hp).senders m hm
      have hsender := ((hi.outbound p hp m hm).accept hkind).2
      rw [hfrom] at hsender
      exact hqp (Owns.unique hq hp hown hsender)
    simp only [set_nodes_of_ne hqp]
    omega

/-- The event does not duplicate a message. -/
def Event.single : Event → Bool
  | .deliver _ duplicate => !duplicate
  | _ => true

theorem Once.world_step {e : Event} (ho : Once size w) (hi : Inv size passed w P)
    (hsingle : e.single = true) (hstep : w.step e = some w') : Once size w' := by
  have hiset : ∀ p, Inv size passed (w.set p (w.nodes p)) P := by
    intro p
    rw [set_self]
    exact hi
  have hoset : ∀ p, Once size (w.set p (w.nodes p)) := by
    intro p
    rw [set_self]
    exact ho
  have hmem : ∀ {p}, p ∈ w.ids → IsMember size p := fun h => mem_members.mp (hi.ids ▸ h)
  cases e with
  | propose id v =>
    simp only [World.step, Option.ite_none_right_eq_some, Option.some.injEq] at hstep
    obtain ⟨hid, rfl⟩ := hstep
    exact (hoset id).propose (hiset id) (hmem hid)
  | tick id =>
    simp only [World.step, Option.ite_none_right_eq_some, Option.some.injEq] at hstep
    obtain ⟨hid, rfl⟩ := hstep
    exact (hoset id).tick (hiset id) (hmem hid)
  | drain id =>
    simp only [World.step, Option.ite_none_right_eq_some, Option.some.injEq] at hstep
    obtain ⟨hid, rfl⟩ := hstep
    exact ho.drain hi (hmem hid)
  | deliver position duplicate =>
    have hkeep : duplicate = false := by simpa [Event.single] using hsingle
    subst hkeep
    simp only [World.step] at hstep
    split at hstep
    · rename_i m hget
      simp only [Option.ite_none_right_eq_some, Option.some.injEq] at hstep
      obtain ⟨hid, rfl⟩ := hstep
      by_cases hkind : m.kind = .accept
      · exact ho.deliver_accept hget hkind
      · have ho' := (hoset m.toID).step (hiset m.toID) (hmem hid) hkind
        intro q a b hq hown
        refine Nat.le_trans ?_ (ho' q a b hq hown)
        have hnet : (w.net.eraseIdx position).countP (isAccept a b) ≤
            w.net.countP (isAccept a b) := (List.eraseIdx_sublist w.net position).countP_le
        exact Nat.add_le_add_right (Nat.add_le_add_right hnet _) _
    · cases hstep

/-! ## Runs -/

theorem run_inv {events : List Event} (h64 : size ≤ 64)
    (hpassed : ∀ id v, .propose id v ∈ events → passed v) (hi : Inv size passed w P)
    (hrun : w.run events = some w') : ∃ P', Inv size passed w' P' := by
  induction events generalizing w P with
  | nil =>
    obtain rfl : w = w' := by simpa [World.run] using hrun
    exact ⟨P, hi⟩
  | cons e events ih =>
    rw [World.run, List.foldlM_cons] at hrun
    obtain ⟨w₁, hstep, hrest⟩ := Option.bind_eq_some_iff.mp hrun
    obtain ⟨P₁, hi₁⟩ := hi.world_step h64 (fun id v he => hpassed id v (by simp [← he])) hstep
    exact ih (fun id v he => hpassed id v (List.mem_cons_of_mem _ he)) hi₁ hrest

theorem run_once {events : List Event} (h64 : size ≤ 64)
    (hpassed : ∀ id v, .propose id v ∈ events → passed v) (hi : Inv size passed w P)
    (ho : Once size w) (hsingle : ∀ e ∈ events, e.single = true)
    (hrun : w.run events = some w') : Once size w' := by
  induction events generalizing w P with
  | nil =>
    obtain rfl : w = w' := by simpa [World.run] using hrun
    exact ho
  | cons e events ih =>
    rw [World.run, List.foldlM_cons] at hrun
    obtain ⟨w₁, hstep, hrest⟩ := Option.bind_eq_some_iff.mp hrun
    obtain ⟨P₁, hi₁⟩ := hi.world_step h64 (fun id v he => hpassed id v (by simp [← he])) hstep
    exact ih (fun id v he => hpassed id v (List.mem_cons_of_mem _ he)) hi₁
      (ho.world_step hi (hsingle e (List.mem_cons_self ..)) hstep)
      (fun e he => hsingle e (List.mem_cons_of_mem _ he)) hrest

theorem once_start : Once size (World.start size) := fun _ _ _ _ _ => Nat.zero_le _

end Worlds

/-! ## What is chosen -/

/-- A majority of distinct acceptors has accepted the value at the number. -/
def Cluster.ChosenAt (c : Cluster) (num : Nat) (val : Value) : Prop :=
  ∃ F : Finset Nat, (∀ a ∈ F, a ∈ c.ids ∧ ⟨num, val⟩ ∈ (c.nodes a).accepts) ∧
    c.ids.length / 2 + 1 ≤ F.card

section Chosen

variable {passed : Value → Prop} {w : World} {P : Proposals} {num : Nat} {val : Value}

theorem Inv.chosen_iff (hi : Inv size passed w P) :
    w.ChosenAt num val ↔ Synod.Chosen (majority size) (synod w P) num val := by
  have hlen : w.ids.length = size := by rw [hi.ids, members, List.length_range']
  constructor
  · rintro ⟨F, hF, hcard⟩
    refine ⟨F, ⟨F, fun a ha => ?_, by rwa [hlen] at hcard, fun _ => id⟩, fun a ha => (hF a ha).2⟩
    have hid := (hF a ha).1
    rw [hi.ids, mem_members] at hid
    exact Finset.mem_Icc.mpr hid
  · rintro ⟨S, ⟨F, hF, hcard, hS⟩, hacc⟩
    refine ⟨F, fun a ha => ⟨?_, hacc a (hS a ha)⟩, by rwa [hlen]⟩
    rw [hi.ids, mem_members]
    exact Finset.mem_Icc.mp (hF ha)

/-- A decided proposer has a majority behind it. -/
theorem Inv.decided_chosen {p : Nat} (hi : Inv size passed w P) (hp : p ∈ w.ids)
    (hd : (w.nodes p).phase = .decided) : w.ChosenAt (w.nodes p).myNum (w.nodes p).myVal := by
  rw [hi.ids, mem_members] at hp
  have hn := hi.proposer p hp
  have hasks : (w.nodes p).phase.asks = true := by
    rw [hd]
    rfl
  rw [hi.chosen_iff]
  exact ⟨_, quorum_of_popcount (fun a ha => (hn.accepts hasks a ha).1) (hn.decided hd),
    fun a ha => (hn.accepts hasks a ha).2⟩

/-- A node accepts a number at most once. -/
theorem Once.strict (ho : Once size w) (hi : Inv size passed w P) {a : Nat} (ha : a ∈ w.ids) :
    (w.nodes a).accepts.Pairwise fun x y => x.num < y.num := by
  rw [hi.ids, mem_members] at ha
  have hone : ∀ x ∈ (w.nodes a).accepts, (w.nodes a).accepts.countP (·.num = x.num) ≤ 1 := by
    intro x hx
    obtain ⟨_, p, hp, hown⟩ := hi.values _ _ (hi.valid.backed a _ _ hx)
    have hcopies := ho p a x.num hp hown
    unfold copies at hcopies
    omega
  have hnodup : ((w.nodes a).accepts.map (·.num)).Nodup := by
    refine List.nodup_iff_count_le_one.mpr fun b => ?_
    by_cases hb : b ∈ (w.nodes a).accepts.map (·.num)
    · obtain ⟨x, hx, rfl⟩ := List.mem_map.mp hb
      rw [List.count, List.countP_map]
      exact hone x hx
    · rw [List.count_eq_zero_of_not_mem hb]
      exact Nat.zero_le _
  have hne := List.pairwise_map.mp hnodup
  exact ((hi.acceptor a ha).sorted.and hne).imp fun h => Nat.lt_of_le_of_ne h.1 h.2

/-! ## The checks of the engine -/

theorem mem_distinct (values found : List Value) (v : Value) :
    v ∈ values.foldl (fun found val => if val ∈ found then found else found ++ [val]) found ↔
      v ∈ found ∨ v ∈ values := by
  induction values generalizing found with
  | nil => simp
  | cons val values ih =>
    rw [List.foldl_cons, ih]
    split
    · simp only [List.mem_cons]
      constructor
      · rintro (h | h)
        · exact Or.inl h
        · exact Or.inr (Or.inr h)
      · rintro (h | rfl | h)
        · exact Or.inl h
        · exact Or.inl ‹_›
        · exact Or.inr h
    · simp [or_assoc]

theorem nodup_distinct (values found : List Value) (hf : found.Nodup) :
    (values.foldl (fun found val => if val ∈ found then found else found ++ [val]) found).Nodup := by
  induction values generalizing found with
  | nil => exact hf
  | cons val values ih =>
    rw [List.foldl_cons]
    split
    · exact ih found hf
    · refine ih _ (List.nodup_append.mpr ⟨hf, List.nodup_singleton val, fun x hx y hy => ?_⟩)
      rw [List.mem_singleton.mp hy]
      rintro rfl
      contradiction

theorem sum_le_length_filter {l : List Nat} {f : Nat → Nat} (hf : ∀ a ∈ l, f a ≤ 1) :
    (l.map f).sum ≤ (l.filter fun a => 0 < f a).length := by
  induction l with
  | nil => simp
  | cons a l ih =>
    have ha := hf a (List.mem_cons_self ..)
    have hl := ih fun b hb => hf b (List.mem_cons_of_mem _ hb)
    rw [List.map_cons, List.sum_cons, List.filter_cons]
    split
    · rw [List.length_cons]
      omega
    · rename_i hzero
      have : f a = 0 := by simpa using hzero
      omega

/-- When a node accepts a number at most once, enough acceptances are enough acceptors. -/
theorem chosenAt_of_count {c : Cluster} (hids : c.ids.Nodup)
    (hstrict : ∀ a ∈ c.ids, (c.nodes a).accepts.Pairwise fun x y => x.num < y.num)
    {x : Acceptance} (hcount : c.ids.length / 2 + 1 ≤ c.acceptances.count x) :
    c.ChosenAt x.num x.val := by
  have hone : ∀ a ∈ c.ids, (c.nodes a).accepts.count x ≤ 1 := by
    intro a ha
    refine List.nodup_iff_count_le_one.mp ((hstrict a ha).imp fun hlt => ?_) x
    rintro rfl
    exact Nat.lt_irrefl _ hlt
  have hsum : c.acceptances.count x ≤
      (c.ids.filter fun a => 0 < (c.nodes a).accepts.count x).length := by
    rw [Cluster.acceptances, List.count_flatMap]
    exact sum_le_length_filter hone
  refine ⟨(c.ids.filter fun a => 0 < (c.nodes a).accepts.count x).toFinset, fun a ha => ?_, ?_⟩
  · obtain ⟨hid, hpos⟩ := List.mem_filter.mp (List.mem_toFinset.mp ha)
    exact ⟨hid, List.count_pos_iff.mp (by simpa using hpos)⟩
  · rw [List.toFinset_card_of_nodup (hids.filter _)]
    omega

theorem mem_chosenValues {c : Cluster} {v : Value} (hv : v ∈ c.chosenValues) :
    ∃ num, c.ids.length / 2 + 1 ≤ c.acceptances.count ⟨num, v⟩ := by
  rw [Cluster.chosenValues, mem_distinct] at hv
  rcases hv with hv | hv
  · cases hv
  · obtain ⟨x, hx, rfl⟩ := List.mem_map.mp hv
    exact ⟨x.num, by simpa using (List.mem_filter.mp hx).2⟩

theorem rel_of_mem_zip_tail {R : Acceptance → Acceptance → Prop} {l : List Acceptance}
    (hl : l.Pairwise R) {x y : Acceptance} (hxy : (x, y) ∈ l.zip l.tail) : R x y := by
  induction l with
  | nil => cases hxy
  | cons a l ih =>
    cases l with
    | nil => cases hxy
    | cons b l =>
      rcases List.mem_cons.mp hxy with heq | hmem
      · cases heq
        exact (List.pairwise_cons.mp hl).1 _ (List.mem_cons_self ..)
      · exact ih hl.tail hmem

theorem Once.safetyInvariants (ho : Once size w) (hi : Inv size passed w P) :
    ∀ check ∈ w.safetyInvariants, check = none := by
  have hids : w.ids.Nodup := by
    rw [hi.ids, members]
    exact List.nodup_range'
  have hsingle : w.checkSingleChoice = none := by
    have hsame : ∀ v ∈ w.chosenValues, ∀ u ∈ w.chosenValues, v = u := by
      intro v hv u hu
      obtain ⟨b, hb⟩ := mem_chosenValues hv
      obtain ⟨c, hc⟩ := mem_chosenValues hu
      have hv' := chosenAt_of_count hids (fun a ha => ho.strict hi ha) hb
      have hu' := chosenAt_of_count hids (fun a ha => ho.strict hi ha) hc
      exact hi.valid.agreement (hi.chosen_iff.mp hv') (hi.chosen_iff.mp hu')
    have hnodup : w.chosenValues.Nodup := nodup_distinct _ [] List.nodup_nil
    have hlen : w.chosenValues.length ≤ 1 := by
      rcases hlist : w.chosenValues with _ | ⟨v, _ | ⟨u, rest⟩⟩
      · simp
      · simp
      · rw [hlist] at hnodup hsame
        have := hsame v (by simp) u (by simp)
        simp [this] at hnodup
    unfold Cluster.checkSingleChoice
    rw [if_neg (by omega)]
  have hpromise : w.checkPromiseRespected = none := by
    unfold Cluster.checkPromiseRespected
    rw [List.findSome?_eq_none_iff]
    intro a ha
    rw [hi.ids, mem_members] at ha
    have hacc := hi.acceptor a ha
    simp only
    rw [if_neg]
    intro hbad
    obtain ⟨hhas, hgt⟩ : (w.nodes a).hasAccepted = true ∧
        (w.nodes a).promised < (w.nodes a).acceptedNum := by simpa using hbad
    have := hacc.promised hhas
    omega
  have hhistory : w.checkHistoryMonotonic = none := by
    unfold Cluster.checkHistoryMonotonic
    rw [List.findSome?_eq_none_iff]
    intro a ha
    rw [hi.ids, mem_members] at ha
    simp only
    rw [List.findSome?_eq_none_iff]
    rintro ⟨earlier, later⟩ hpair
    have hle := rel_of_mem_zip_tail (hi.acceptor a ha).sorted hpair
    simp only
    rw [if_neg (by omega)]
  intro check hcheck
  simp only [Cluster.safetyInvariants, hsingle, hpromise, hhistory] at hcheck
  simpa using hcheck

end Chosen

/-- Single-decree Paxos, over any run of a cluster: the events may call `propose` and
`tick` at any node and deliver any message in flight, once, again or never. -/
theorem paxos_agreement (size : Nat) (h64 : size ≤ 64) (events : List Event) (w : World)
    (hrun : (World.start size).run events = some w) :
    (∀ num val num' val', w.ChosenAt num val → w.ChosenAt num' val' → val = val') ∧
    (∀ num val, w.ChosenAt num val → ∃ id, .propose id val ∈ events) ∧
    (∀ p ∈ w.ids, (w.nodes p).phase = .decided →
      w.ChosenAt (w.nodes p).myNum (w.nodes p).myVal) ∧
    ((∀ e ∈ events, e.single = true) →
      (∀ p ∈ w.ids, (w.nodes p).accepts.Pairwise fun x y => x.num < y.num) ∧
      ∀ check ∈ w.safetyInvariants, check = none) := by
  have hpassed : ∀ id v, .propose id v ∈ events → ∃ id, .propose id v ∈ events :=
    fun id v h => ⟨id, h⟩
  have hstart : Inv size (fun v => ∃ id, .propose id v ∈ events) (World.start size)
      (fun _ _ => False) := Inv.start
  obtain ⟨P, hi⟩ := run_inv h64 hpassed hstart hrun
  refine ⟨fun b v c u hv hu => ?_, fun b v hv => ?_, fun p hp hd => hi.decided_chosen hp hd,
    fun hsingle => ?_⟩
  · exact hi.valid.agreement (hi.chosen_iff.mp hv) (hi.chosen_iff.mp hu)
  · exact (hi.values b v (hi.valid.chosen_proposed (hi.chosen_iff.mp hv))).1
  · have ho := run_once h64 hpassed hstart once_start hsingle hrun
    exact ⟨fun p hp => ho.strict hi hp, ho.safetyInvariants hi⟩

/-- Two proposers compete: the second finds what the first had accepted, and gives up
its own value. -/
def competing : List Event :=
  [.propose 1 7, .drain 1, .deliver 0 false, .drain 2, .deliver 1 false, .drain 1,
    .propose 2 9, .drain 2, .deliver 3 false, .drain 1, .deliver 4 false, .drain 2,
    .deliver 5 false, .drain 3, .deliver 5 false]

theorem paxos_agreement_competing :
    ((World.start 3).run competing).map
        (fun w => ((w.nodes 2).phase, (w.nodes 2).myVal, (w.nodes 2).adopted, w.chosenValues)) =
      some (.decided, 7, 1, [7]) ∧
    ∃ w, (World.start 3).run competing = some w ∧ ∀ check ∈ w.safetyInvariants, check = none := by
  have hsome : ((World.start 3).run competing).isSome = true := by decide +kernel
  obtain ⟨w, hw⟩ := Option.isSome_iff_exists.mp hsome
  exact ⟨by decide +kernel, w, hw,
    ((paxos_agreement 3 (by decide) competing w hw).2.2.2 (by decide)).2⟩

end Promtact.Paxos
