import Promtact.BitSet
import Promtact.Paxos.Node
import Promtact.Synod

/-!
# Paxos agreement

Every reachable world is a valid state of the synod (`Inv`): what the nodes have
accepted and promised is in their state, and what was proposed at which number is
followed next to it. The numbers of a proposer are its own, so that it proposes at
most one value at a number. Each step of a node keeps the invariant, and so does
every run.
-/

namespace Promtact.Paxos

open Function (update)
open Synod (Valid Extends Chosen Safe)

variable {size : Nat}

/-! ## Masks and quorums -/

/-- The node is in the mask. -/
def Has (mask : BitVec 64) (id : Nat) : Prop := 0 < id ∧ mask.getLsbD (id - 1) = true

/-- The node is in the cluster. -/
def IsMember (size id : Nat) : Prop := 1 ≤ id ∧ id ≤ size

theorem mem_members {id : Nat} : id ∈ members size ↔ IsMember size id := by
  simp only [members, List.mem_range'_1, IsMember]
  omega

theorem has_zero {a : Nat} : ¬ Has 0 a := by
  rintro ⟨_, hbit⟩
  simp at hbit

theorem has_or_bit {mask : BitVec 64} {id a : Nat} (h0 : 0 < id) (h64 : id ≤ 64) :
    Has (mask ||| bit id) a ↔ Has mask a ∨ a = id := by
  unfold Has bit
  rw [BitVec.getLsbD_or, BitVec.getLsbD_shiftLeft]
  simp only [Bool.or_eq_true, Bool.and_eq_true, decide_eq_true_eq, Bool.not_eq_true',
    decide_eq_false_iff_not, BitVec.getLsbD_one]
  constructor
  · rintro ⟨ha, hold | hnew⟩
    · exact Or.inl ⟨ha, hold⟩
    · exact Or.inr (by omega)
  · rintro (⟨ha, hold⟩ | rfl)
    · exact ⟨ha, Or.inl hold⟩
    · exact ⟨h0, Or.inr (by omega)⟩

theorem popcountLoop_eq (rounds : Nat) (mask : BitVec 64)
    (hr : (BitSet.ones mask).card ≤ rounds) : popcountLoop rounds mask = (BitSet.ones mask).card := by
  induction rounds generalizing mask with
  | zero =>
    rw [popcountLoop]
    omega
  | succ rounds ih =>
    rw [popcountLoop]
    split
    · rename_i hzero
      rw [hzero, BitSet.ones_zero, Finset.card_empty]
    · rename_i hne
      have hclear := BitSet.card_ones_clear hne
      rw [ih _ (by omega), hclear]

theorem popcount_eq (mask : BitVec 64) : popcount mask = (BitSet.ones mask).card :=
  popcountLoop_eq 64 mask ((Finset.card_le_univ _).trans (by simp))

/-- More than half of the cluster. -/
def majority (size : Nat) : Synod.Quorums Nat where
  IsQuorum S := ∃ F : Finset Nat, F ⊆ Finset.Icc 1 size ∧ size / 2 + 1 ≤ F.card ∧ ∀ a ∈ F, a ∈ S
  meet := by
    rintro S T ⟨F, hF, hcF, hS⟩ ⟨G, hG, hcG, hT⟩
    by_contra hno
    push Not at hno
    have hdisj : Disjoint F G := by
      rw [Finset.disjoint_left]
      exact fun a ha hb => hno a (hS a ha) (hT a hb)
    have hcard := Finset.card_le_card (Finset.union_subset hF hG)
    rw [Finset.card_union_of_disjoint hdisj, Nat.card_Icc] at hcard
    omega

theorem quorum_of_popcount {mask : BitVec 64} (hmem : ∀ a, Has mask a → IsMember size a)
    (hcount : size / 2 + 1 ≤ popcount mask) : (majority size).IsQuorum {a | Has mask a} := by
  refine ⟨(BitSet.ones mask).image fun i => i.val + 1, ?_, ?_, ?_⟩
  · intro a ha
    obtain ⟨i, hi, rfl⟩ := Finset.mem_image.mp ha
    have := hmem (i.val + 1) ⟨by omega, by simpa using hi⟩
    exact Finset.mem_Icc.mpr this
  · rw [Finset.card_image_of_injective _ (fun i j hij => by
      simp only [Nat.add_right_cancel_iff] at hij
      exact Fin.ext hij), ← popcount_eq]
    exact hcount
  · intro a ha
    obtain ⟨i, hi, rfl⟩ := Finset.mem_image.mp ha
    exact ⟨by omega, by simpa using hi⟩

/-! ## The invariant -/

/-- The numbers of a proposer. -/
def Owns (size p b : Nat) : Prop := ∃ round, b = round * size + p

theorem Owns.unique {p q b : Nat} (hp : IsMember size p) (hq : IsMember size q)
    (hb : Owns size p b) (hb' : Owns size q b) : p = q := by
  obtain ⟨r, rfl⟩ := hb
  obtain ⟨r', hr⟩ := hb'
  obtain ⟨hp1, hp2⟩ := hp
  obtain ⟨hq1, hq2⟩ := hq
  rcases Nat.lt_trichotomy r r' with hlt | rfl | hlt
  · have := Nat.mul_le_mul_right size hlt
    rw [Nat.succ_mul] at this
    omega
  · omega
  · have := Nat.mul_le_mul_right size hlt
    rw [Nat.succ_mul] at this
    omega

/-- What was proposed at which number. -/
abbrev Proposals := Nat → Value → Prop

/-- The synod that a world shows. -/
def synod (w : World) (P : Proposals) : Synod.State Nat Value where
  proposed := P
  accepted a b v := ⟨b, v⟩ ∈ (w.nodes a).accepts
  promised a := (w.nodes a).promised

/-- The latest acceptance is the highest, and it is not above the promise. -/
structure AcceptorInv (n : Node) : Prop where
  latest : ∀ a ∈ n.accepts, n.hasAccepted = true ∧ a.num ≤ n.acceptedNum
  recorded : n.hasAccepted = true → ⟨n.acceptedNum, n.acceptedVal⟩ ∈ n.accepts
  promised : n.hasAccepted = true → n.acceptedNum ≤ n.promised
  sorted : n.accepts.Pairwise fun a b => a.num ≤ b.num

/-- An acceptor has promised a number, and reported its highest acceptance below. -/
structure Promised (s : Synod.State Nat Value) (a num accNum : Nat) (hasAcc : Bool) : Prop where
  promised : num ≤ s.promised a
  highest : ∀ c w, s.accepted a c w → c < num → hasAcc = true ∧ c ≤ accNum

/-- A reported acceptance. -/
def Reported (s : Synod.State Nat Value) (num accNum : Nat) (accVal : Value) : Prop :=
  accNum < num ∧ ∃ a, s.accepted a accNum accVal

def Phase.asks : Phase → Bool
  | .accepting | .decided => true
  | _ => false

structure ProposerInv (size : Nat) (s : Synod.State Nat Value) (p : Nat) (n : Node) : Prop where
  id_eq : n.id = p
  size_eq : n.size = size
  peers_eq : n.peers = (members size).filter (· ≠ p)
  senders : ∀ m ∈ n.outbound, m.fromID = p
  num_eq : n.phase ≠ .idle → n.myNum = n.round * size + p
  fresh : ∀ b v, s.proposed b v → Owns size p b →
    n.phase ≠ .idle ∧ (b < n.myNum ∨ b = n.myNum ∧ n.phase.asks = true)
  promises : n.phase = .preparing → ∀ a, Has n.promiseMask a →
    IsMember size a ∧ Promised s a n.myNum n.bestNum n.hasBest
  best : n.phase = .preparing → n.hasBest = true → Reported s n.myNum n.bestNum n.bestVal
  asked : n.phase.asks = true → s.proposed n.myNum n.myVal
  accepts : n.phase.asks = true → ∀ a, Has n.acceptMask a →
    IsMember size a ∧ s.accepted a n.myNum n.myVal
  decided : n.phase = .decided → size / 2 + 1 ≤ popcount n.acceptMask

/-- What a message may claim. -/
structure MessageInv (size : Nat) (s : Synod.State Nat Value) (m : Message) : Prop where
  sender : IsMember size m.fromID
  promise : m.kind = .promise → m.ok = true →
    Promised s m.fromID m.num m.acceptedNum m.hasAccepted ∧
      (m.hasAccepted = true → Reported s m.num m.acceptedNum m.acceptedVal)
  accept : m.kind = .accept → s.proposed m.num m.val ∧ Owns size m.fromID m.num
  accepted : m.kind = .accepted → m.ok = true → ∃ v, s.accepted m.fromID m.num v

structure Inv (size : Nat) (passed : Value → Prop) (w : World) (P : Proposals) : Prop where
  ids : w.ids = members size
  valid : Valid (majority size) (synod w P)
  acceptor : ∀ a, IsMember size a → AcceptorInv (w.nodes a)
  proposer : ∀ p, IsMember size p → ProposerInv size (synod w P) p (w.nodes p)
  outbound : ∀ p, IsMember size p → ∀ m ∈ (w.nodes p).outbound, MessageInv size (synod w P) m
  net : ∀ m ∈ w.net, MessageInv size (synod w P) m
  value : ∀ p, IsMember size p → (w.nodes p).phase ≠ .idle → passed (w.nodes p).myVal
  values : ∀ b v, P b v → passed v ∧ ∃ p, IsMember size p ∧ Owns size p b

/-! ## What one node may change -/

/-- The synod after steps of node `p`. -/
structure Grows (size p : Nat) (s s' : Synod.State Nat Value) : Prop where
  step : Extends s s'
  accepted : ∀ a b v, s.accepted a b v → s'.accepted a b v
  proposed : ∀ b v, s.proposed b v → s'.proposed b v
  own : ∀ b v, s'.proposed b v → s.proposed b v ∨ Owns size p b

section Grow

variable {p q : Nat} {s s' : Synod.State Nat Value}

theorem Grows.refl : Grows size p s s where
  step := { promised := fun _ => Nat.le_refl _, accepted := fun _ _ _ => Or.inl }
  accepted _ _ _ := id
  proposed _ _ := id
  own _ _ := Or.inl

theorem Promised.grow {a num accNum : Nat} {hasAcc : Bool} (hp : Promised s a num accNum hasAcc)
    (g : Grows size p s s') : Promised s' a num accNum hasAcc where
  promised := Nat.le_trans hp.promised (g.step.promised a)
  highest c w hacc hlt := by
    rcases g.step.accepted a c w hacc with hold | hle
    · exact hp.highest c w hold hlt
    · have := hp.promised
      omega

theorem Reported.grow {num accNum : Nat} {accVal : Value} (hr : Reported s num accNum accVal)
    (g : Grows size p s s') : Reported s' num accNum accVal := by
  obtain ⟨hlt, a, hacc⟩ := hr
  exact ⟨hlt, a, g.accepted a _ _ hacc⟩

theorem MessageInv.grow {m : Message} (hm : MessageInv size s m) (g : Grows size p s s') :
    MessageInv size s' m where
  sender := hm.sender
  promise hk hok := ⟨(hm.promise hk hok).1.grow g, fun ha => ((hm.promise hk hok).2 ha).grow g⟩
  accept hk := ⟨g.proposed _ _ (hm.accept hk).1, (hm.accept hk).2⟩
  accepted hk hok := by
    obtain ⟨v, hv⟩ := hm.accepted hk hok
    exact ⟨v, g.accepted _ _ _ hv⟩

/-- What a proposer knows stays true, as long as its own numbers get no proposal. -/
theorem ProposerInv.grow {n : Node} (hn : ProposerInv size s q n) (g : Grows size p s s')
    (hown : ∀ b v, s'.proposed b v → Owns size q b → s.proposed b v) :
    ProposerInv size s' q n :=
  { hn with
    fresh := fun b v hb ho => hn.fresh b v (hown b v hb ho) ho
    promises := fun hp a ha => ⟨(hn.promises hp a ha).1, (hn.promises hp a ha).2.grow g⟩
    best := fun hp hb => (hn.best hp hb).grow g
    asked := fun ha => g.proposed _ _ (hn.asked ha)
    accepts := fun hp a ha => ⟨(hn.accepts hp a ha).1, g.accepted _ _ _ (hn.accepts hp a ha).2⟩ }

theorem ProposerInv.other {n : Node} (hn : ProposerInv size s q n) (g : Grows size p s s')
    (hp : IsMember size p) (hq : IsMember size q) (hne : q ≠ p) : ProposerInv size s' q n :=
  hn.grow g fun b v hb ho =>
    (g.own b v hb).resolve_right fun hop => hne (Owns.unique hq hp ho hop)

end Grow

section Set

variable {passed : Value → Prop} {w : World} {P P' : Proposals} {p : Nat} {n n' : Node}

@[simp] theorem set_nodes_self : (w.set p n).nodes p = n := by
  simp [World.set]

@[simp] theorem set_nodes_of_ne {a : Nat} (hne : a ≠ p) : (w.set p n).nodes a = w.nodes a := by
  simp [World.set, hne]

/-- One node has changed. -/
theorem Inv.set (hi : Inv size passed (w.set p n) P) (hp : IsMember size p)
    (g : Grows size p (synod (w.set p n) P) (synod (w.set p n') P'))
    (hvalid : Valid (majority size) (synod (w.set p n') P')) (hacc : AcceptorInv n')
    (hprop : ProposerInv size (synod (w.set p n') P') p n')
    (hout : ∀ m ∈ n'.outbound, MessageInv size (synod (w.set p n') P') m)
    (hval : n'.phase ≠ .idle → passed n'.myVal)
    (hvals : ∀ b v, P' b v → passed v ∧ ∃ p, IsMember size p ∧ Owns size p b) :
    Inv size passed (w.set p n') P' where
  ids := hi.ids
  valid := hvalid
  acceptor a ha := by
    by_cases hap : a = p
    · rw [hap, set_nodes_self]
      exact hacc
    · have := hi.acceptor a ha
      rw [set_nodes_of_ne hap] at this ⊢
      exact this
  proposer a ha := by
    by_cases hap : a = p
    · rw [hap, set_nodes_self]
      exact hprop
    · have := (hi.proposer a ha).other g hp ha hap
      rw [set_nodes_of_ne hap] at this ⊢
      exact this
  outbound a ha m hm := by
    by_cases hap : a = p
    · rw [hap, set_nodes_self] at hm
      exact hout m hm
    · rw [set_nodes_of_ne hap] at hm
      exact (hi.outbound a ha m (by rwa [set_nodes_of_ne hap])).grow g
  net m hm := (hi.net m hm).grow g
  value a ha := by
    by_cases hap : a = p
    · rw [hap, set_nodes_self]
      exact hval
    · have := hi.value a ha
      rw [set_nodes_of_ne hap] at this ⊢
      exact this
  values := hvals

/-- What the invariant says of the node at hand. -/
theorem Inv.self (hi : Inv size passed (w.set p n) P) (hp : IsMember size p) :
    AcceptorInv n ∧ ProposerInv size (synod (w.set p n) P) p n ∧
      (∀ m ∈ n.outbound, MessageInv size (synod (w.set p n) P) m) ∧
      (n.phase ≠ .idle → passed n.myVal) := by
  have hacc := hi.acceptor p hp
  have hprop := hi.proposer p hp
  have hout := hi.outbound p hp
  have hval := hi.value p hp
  rw [set_nodes_self] at hacc hprop hout hval
  exact ⟨hacc, hprop, hout, hval⟩

/-- The synod of a world in which one node has other acceptances and promises. -/
theorem synod_set (ha : n'.accepts = n.accepts) (hpr : n'.promised = n.promised) :
    synod (w.set p n') P = synod (w.set p n) P := by
  have hnodes : ∀ a, ((w.set p n').nodes a).accepts = ((w.set p n).nodes a).accepts ∧
      ((w.set p n').nodes a).promised = ((w.set p n).nodes a).promised := by
    intro a
    by_cases hap : a = p
    · simp [hap, ha, hpr]
    · simp [hap]
  unfold synod
  simp only [hnodes]

/-- The node has changed, but neither its promise nor its acceptances. -/
theorem Inv.update (hi : Inv size passed (w.set p n) P) (hp : IsMember size p)
    (ha : n'.accepts = n.accepts) (hpr : n'.promised = n.promised) (hacc : AcceptorInv n')
    (hprop : ProposerInv size (synod (w.set p n) P) p n')
    (hout : ∀ m ∈ n'.outbound, MessageInv size (synod (w.set p n) P) m)
    (hval : n'.phase ≠ .idle → passed n'.myVal) : Inv size passed (w.set p n') P := by
  have hsame : synod (w.set p n') P = synod (w.set p n) P := synod_set ha hpr
  refine hi.set hp ?_ ?_ hacc ?_ ?_ hval hi.values
  · rw [hsame]
    exact Grows.refl
  · rw [hsame]
    exact hi.valid
  · rw [hsame]
    exact hprop
  · rw [hsame]
    exact hout

end Set

/-! ## Acceptors -/

section Acceptor

variable {passed : Value → Prop} {w : World} {P : Proposals} {p num accNum : Nat} {n : Node}
  {accVal : Value} {hasAcc : Bool} {accepts : List Acceptance}

theorem synod_accepted_self {b : Nat} {v : Value} :
    (synod (w.set p n) P).accepted p b v ↔ ⟨b, v⟩ ∈ n.accepts := by
  simp [synod]

theorem synod_promised_self : (synod (w.set p n) P).promised p = n.promised := by
  simp [synod]

theorem ProposerInv.answer {s : Synod.State Nat Value} (hn : ProposerInv size s p n) :
    ProposerInv size s p { n with
      promised := num, acceptedNum := accNum, acceptedVal := accVal, hasAccepted := hasAcc
      accepts := accepts } :=
  { hn with }

/-- The acceptor of a node promises or accepts. -/
theorem Inv.answer (hi : Inv size passed (w.set p n) P) (hp : IsMember size p)
    (hpr : n.promised ≤ num) (hold : ∀ x ∈ n.accepts, x ∈ accepts)
    (hnew : ∀ x ∈ accepts, x ∈ n.accepts ∨ n.promised ≤ x.num ∧ P x.num x.val)
    (hacc : AcceptorInv { n with
      promised := num, acceptedNum := accNum, acceptedVal := accVal, hasAccepted := hasAcc
      accepts := accepts }) :
    Inv size passed (w.set p { n with
      promised := num, acceptedNum := accNum, acceptedVal := accVal, hasAccepted := hasAcc
      accepts := accepts }) P := by
  obtain ⟨_, hprop, hout, hval⟩ := hi.self hp
  have hstep : Extends (synod (w.set p n) P) (synod (w.set p { n with
      promised := num, acceptedNum := accNum, acceptedVal := accVal, hasAccepted := hasAcc
      accepts := accepts }) P) := by
    constructor
    · intro a
      by_cases hap : a = p
      · subst hap
        simpa only [synod_promised_self] using hpr
      · simp [synod, hap]
    · intro a b v hb
      by_cases hap : a = p
      · subst hap
        rw [synod_accepted_self] at hb ⊢
        rw [synod_promised_self]
        exact (hnew _ hb).imp id And.left
      · exact Or.inl (by simpa [synod, hap] using hb)
  have g : Grows size p (synod (w.set p n) P) (synod (w.set p { n with
      promised := num, acceptedNum := accNum, acceptedVal := accVal, hasAccepted := hasAcc
      accepts := accepts }) P) := by
    refine ⟨hstep, fun a b v hb => ?_, fun _ _ => id, fun _ _ => Or.inl⟩
    by_cases hap : a = p
    · subst hap
      rw [synod_accepted_self] at hb ⊢
      exact hold _ hb
    · simpa [synod, hap] using hb
  refine hi.set hp g ?_ hacc (hprop.grow g fun _ _ hb _ => hb).answer (fun m hm => (hout m hm).grow g)
    hval hi.values
  refine hi.valid.extends hstep rfl fun a b v hb => ?_
  by_cases hap : a = p
  · subst hap
    rw [synod_accepted_self] at hb
    rcases hnew _ hb with hb | ⟨_, hb⟩
    · exact hi.valid.backed a b v (synod_accepted_self.mpr hb)
    · exact hb
  · exact hi.valid.backed a b v (by simpa [synod, hap] using hb)

theorem Inv.onPrepare (hi : Inv size passed (w.set p n) P) (hp : IsMember size p) (num : Nat) :
    Inv size passed (w.set p (n.onPrepare num).2) P ∧
      ((n.onPrepare num).1.ok = true →
        Promised (synod (w.set p (n.onPrepare num).2) P) p num (n.onPrepare num).1.accNum
          (n.onPrepare num).1.hasAcc ∧
        ((n.onPrepare num).1.hasAcc = true →
          Reported (synod (w.set p (n.onPrepare num).2) P) num (n.onPrepare num).1.accNum
            (n.onPrepare num).1.accVal)) := by
  obtain ⟨hacc, _, _, _⟩ := hi.self hp
  unfold Node.onPrepare
  split
  · exact ⟨hi, nofun⟩
  rename_i hlt
  have hacc' : AcceptorInv { n with promised := num } :=
    { hacc with
      promised := fun h => Nat.le_trans (hacc.promised h) (Nat.le_of_not_le hlt) }
  refine ⟨hi.answer hp (by omega) (fun _ => id) (fun _ => Or.inl) hacc', fun _ => ⟨⟨?_, ?_⟩, ?_⟩⟩
  · rw [synod_promised_self]
  · intro c v hc _
    rw [synod_accepted_self] at hc
    exact hacc.latest _ hc
  · intro hhas
    refine ⟨?_, p, synod_accepted_self.mpr (hacc.recorded hhas)⟩
    have := hacc.promised hhas
    show n.acceptedNum < num
    omega

theorem Inv.onAccept {val : Value} (hi : Inv size passed (w.set p n) P) (hp : IsMember size p)
    (hval : P num val) :
    Inv size passed (w.set p (n.onAccept num val).2) P ∧
      ((n.onAccept num val).1 = true →
        (synod (w.set p (n.onAccept num val).2) P).accepted p num val) := by
  obtain ⟨hacc, _, _, _⟩ := hi.self hp
  unfold Node.onAccept
  split
  · exact ⟨hi, nofun⟩
  rename_i hle
  have hacc' : AcceptorInv { n with
      promised := num, acceptedNum := num, acceptedVal := val, hasAccepted := true
      accepts := n.accepts ++ [⟨num, val⟩] } := by
    have hbelow : ∀ a ∈ n.accepts, a.num ≤ num := by
      intro a ha
      obtain ⟨hhas, hnum⟩ := hacc.latest a ha
      have := hacc.promised hhas
      omega
    refine ⟨fun a ha => ⟨rfl, ?_⟩, fun _ => by simp, fun _ => Nat.le_refl _, ?_⟩
    · rcases List.mem_append.mp ha with ha | ha
      · exact hbelow a ha
      · rw [List.mem_singleton.mp ha]
    · refine List.pairwise_append.mpr ⟨hacc.sorted, List.pairwise_singleton _ _, fun a ha b hb => ?_⟩
      rw [List.mem_singleton.mp hb]
      exact hbelow a ha
  refine ⟨hi.answer hp (by omega) (fun x hx => List.mem_append_left _ hx) (fun x hx => ?_) hacc',
    fun _ => synod_accepted_self.mpr (by simp)⟩
  rcases List.mem_append.mp hx with hx | hx
  · exact Or.inl hx
  · rw [List.mem_singleton.mp hx]
    exact Or.inr ⟨Nat.le_of_not_lt hle, hval⟩

/-- An accept leaves the proposer's fields alone. -/
theorem onAccept_proposer (n : Node) (num : Nat) (val : Value) :
    ∃ promised acceptedNum acceptedVal hasAccepted accepts, (n.onAccept num val).2 = { n with
      promised := promised, acceptedNum := acceptedNum, acceptedVal := acceptedVal
      hasAccepted := hasAccepted, accepts := accepts } := by
  unfold Node.onAccept
  split
  · exact ⟨_, _, _, _, _, rfl⟩
  · exact ⟨_, _, _, _, _, rfl⟩

end Acceptor

/-! ## Proposers -/

section Proposer

variable {passed : Value → Prop} {w : World} {P : Proposals} {p : Nat} {n : Node}

theorem Inv.countPromise {fromID accNum : Nat} {accVal : Value} {hasAcc : Bool}
    (hi : Inv size passed (w.set p n) P) (hp : IsMember size p) (h64 : size ≤ 64)
    (hphase : n.phase = .preparing) (hfrom : IsMember size fromID)
    (hpromised : Promised (synod (w.set p n) P) fromID n.myNum accNum hasAcc)
    (hreported : hasAcc = true → Reported (synod (w.set p n) P) n.myNum accNum accVal) :
    Inv size passed (w.set p (n.countPromise fromID accNum accVal hasAcc)) P := by
  obtain ⟨hacc, hprop, hout, hval⟩ := hi.self hp
  have hmask : ∀ a, Has (n.promiseMask ||| bit fromID) a ↔ Has n.promiseMask a ∨ a = fromID :=
    fun a => has_or_bit hfrom.1 (Nat.le_trans hfrom.2 h64)
  simp only [Node.countPromise]
  split
  · rename_i hbetter
    obtain ⟨hhas, hbetter⟩ : hasAcc = true ∧ (n.hasBest = false ∨ n.bestNum < accNum) := by
      simpa using hbetter
    refine hi.update hp rfl rfl { hacc with } { hprop with
      promises := fun _ a ha => ?_, best := fun _ _ => hreported hhas } hout hval
    rcases (hmask a).mp ha with ha | rfl
    · obtain ⟨hmem, hpr⟩ := hprop.promises hphase a ha
      refine ⟨hmem, hpr.promised, fun c v hc hlt => ⟨rfl, ?_⟩⟩
      obtain ⟨hb, hle⟩ := hpr.highest c v hc hlt
      rcases hbetter with hbetter | hbetter
      · rw [hb] at hbetter
        cases hbetter
      · exact Nat.le_trans hle (Nat.le_of_lt hbetter)
    · exact ⟨hfrom, hpromised.promised, fun c v hc hlt =>
        ⟨rfl, (hpromised.highest c v hc hlt).2⟩⟩
  · rename_i hnot
    have hworse : hasAcc = true → n.hasBest = true ∧ accNum ≤ n.bestNum := by
      simpa using hnot
    refine hi.update hp rfl rfl { hacc with } { hprop with
      promises := fun _ a ha => ?_ } hout hval
    rcases (hmask a).mp ha with ha | rfl
    · exact hprop.promises hphase a ha
    · refine ⟨hfrom, hpromised.promised, fun c v hc hlt => ?_⟩
      obtain ⟨hhas, hle⟩ := hpromised.highest c v hc hlt
      obtain ⟨hb, hle'⟩ := hworse hhas
      exact ⟨hb, Nat.le_trans hle hle'⟩

/-- Before phase two the number of a round has no proposal. -/
theorem ProposerInv.below {s : Synod.State Nat Value} (hn : ProposerInv size s p n)
    (hphase : n.phase = .preparing) (b : Nat) (v : Value) (hb : s.proposed b v)
    (ho : Owns size p b) : b < n.myNum := by
  obtain ⟨_, hlt | ⟨_, hasks⟩⟩ := hn.fresh b v hb ho
  · exact hlt
  · rw [hphase] at hasks
    cases hasks

theorem ProposerInv.owns {s : Synod.State Nat Value} (hn : ProposerInv size s p n)
    (hphase : n.phase ≠ .idle) : Owns size p n.myNum :=
  ⟨n.round, hn.num_eq hphase⟩

/-- A value that is safe is proposed at the number of the round. -/
theorem Inv.proposal {adopted : Nat} {val : Value} (hi : Inv size passed (w.set p n) P)
    (hp : IsMember size p) (hphase : n.phase = .preparing)
    (hsafe : Safe (majority size) (synod (w.set p n) P) n.myNum val) (hpassed : passed val) :
    Inv size passed
      (w.set p { n with adopted := adopted, myVal := val, phase := .accepting, acceptMask := 0 })
      (fun b v => P b v ∨ b = n.myNum ∧ v = val) := by
  obtain ⟨hacc, hprop, hout, _⟩ := hi.self hp
  have hactive : n.phase ≠ .idle := by simp [hphase]
  have hown : Owns size p n.myNum := hprop.owns hactive
  have hbelow : ∀ b v, P b v → Owns size p b → b < n.myNum := hprop.below hphase
  have hsynod : synod
      (w.set p { n with adopted := adopted, myVal := val, phase := .accepting, acceptMask := 0 })
      (fun b v => P b v ∨ b = n.myNum ∧ v = val) =
      (synod (w.set p n) P).propose n.myNum val := by
    have hsame : synod
        (w.set p { n with adopted := adopted, myVal := val, phase := .accepting, acceptMask := 0 })
        (fun b v => P b v ∨ b = n.myNum ∧ v = val) =
        synod (w.set p n) (fun b v => P b v ∨ b = n.myNum ∧ v = val) := synod_set rfl rfl
    rw [hsame]
    rfl
  have g : Grows size p (synod (w.set p n) P) ((synod (w.set p n) P).propose n.myNum val) := by
    refine ⟨⟨fun _ => Nat.le_refl _, fun _ _ _ => Or.inl⟩, fun _ _ _ => id, fun _ _ => Or.inl, ?_⟩
    rintro b v (hb | ⟨rfl, _⟩)
    · exact Or.inl hb
    · exact Or.inr hown
  refine hi.set hp (by rw [hsynod]; exact g) ?_ { hacc with } ?_ ?_ (fun _ => hpassed) ?_
  · rw [hsynod]
    refine hi.valid.propose (fun v hv => ?_) hsafe
    exact Nat.lt_irrefl _ (hbelow _ v hv hown)
  · rw [hsynod]
    refine {
      id_eq := hprop.id_eq
      size_eq := hprop.size_eq
      peers_eq := hprop.peers_eq
      senders := hprop.senders
      num_eq := fun _ => hprop.num_eq hactive
      fresh := fun b v hb ho => ⟨nofun, ?_⟩
      promises := nofun
      best := nofun
      asked := fun _ => Or.inr ⟨rfl, rfl⟩
      accepts := fun _ a ha => absurd ha has_zero
      decided := nofun }
    rcases hb with hb | ⟨rfl, _⟩
    · exact Or.inl (hbelow b v hb ho)
    · exact Or.inr ⟨rfl, rfl⟩
  · rw [hsynod]
    exact fun m hm => (hout m hm).grow g
  · rintro b v (hb | ⟨rfl, rfl⟩)
    · exact hi.values b v hb
    · exact ⟨hpassed, p, hp, hown⟩

theorem adopt_eq : n.adopt = { n with adopted := n.adopt.adopted, myVal := n.adopt.myVal } := by
  unfold Node.adopt
  split
  · rfl
  · rfl

/-- A quorum has promised: the value of the best report, or the own one, is safe. -/
theorem Inv.adopt (hi : Inv size passed (w.set p n) P) (hp : IsMember size p)
    (hphase : n.phase = .preparing) (hcount : size / 2 + 1 ≤ popcount n.promiseMask) :
    Inv size passed (w.set p { n.adopt with phase := .accepting, acceptMask := 0 })
      (fun b v => P b v ∨ b = n.myNum ∧ v = n.adopt.myVal) := by
  obtain ⟨_, hprop, _, hval⟩ := hi.self hp
  have hreport : Synod.Report (majority size) (synod (w.set p n) P) {a | Has n.promiseMask a}
      n.myNum (if n.hasBest then some (n.bestNum, n.bestVal) else none) := by
    refine ⟨quorum_of_popcount (fun a ha => (hprop.promises hphase a ha).1) hcount,
      fun a ha => (hprop.promises hphase a ha).2.promised, fun c v hc => ?_, fun a ha c v hc hlt => ?_⟩
    · split at hc
      · cases hc
        exact hprop.best hphase ‹_›
      · cases hc
    · obtain ⟨hb, hle⟩ := (hprop.promises hphase a ha).2.highest c v hc hlt
      exact ⟨n.bestNum, n.bestVal, by rw [if_pos hb], hle⟩
  have hsafe : Safe (majority size) (synod (w.set p n) P) n.myNum n.adopt.myVal := by
    refine hreport.safe hi.valid fun d u hbest => ?_
    split at hbest
    · cases hbest
      simp [Node.adopt, *]
    · cases hbest
  have hpassed : passed n.adopt.myVal := by
    unfold Node.adopt
    split
    · rename_i hb
      obtain ⟨_, a, ha⟩ := hprop.best hphase hb
      exact (hi.values _ _ (hi.valid.backed _ _ _ ha)).1
    · exact hval (by simp [hphase])
  rw [adopt_eq]
  exact hi.proposal hp hphase hsafe hpassed

theorem Inv.acceptOwn (hi : Inv size passed (w.set p n) P) (hp : IsMember size p)
    (h64 : size ≤ 64) (hphase : n.phase = .accepting) :
    Inv size passed (w.set p n.acceptOwn) P ∧ n.acceptOwn.phase = .accepting := by
  obtain ⟨_, hprop, _, _⟩ := hi.self hp
  obtain ⟨hi', hok⟩ := hi.onAccept hp (hprop.asked (by rw [hphase]; rfl))
  obtain ⟨_, _, _, _, _, heq⟩ := onAccept_proposer n n.myNum n.myVal
  have hphase' : (n.onAccept n.myNum n.myVal).2.phase = .accepting := by
    rw [heq]
    exact hphase
  simp only [Node.acceptOwn]
  split
  · rename_i htrue
    obtain ⟨hacc', hprop', hout', hval'⟩ := hi'.self hp
    have hnum : (n.onAccept n.myNum n.myVal).2.myNum = n.myNum ∧
        (n.onAccept n.myNum n.myVal).2.myVal = n.myVal := by
      rw [heq]
      exact ⟨rfl, rfl⟩
    refine ⟨hi'.update hp rfl rfl { hacc' with } { hprop' with
      accepts := fun hasks a ha => ?_, decided := fun hd => ?_ } hout' hval', hphase'⟩
    · rw [hprop'.id_eq] at ha
      rcases (has_or_bit hp.1 (Nat.le_trans hp.2 h64)).mp ha with ha | rfl
      · exact hprop'.accepts hasks a ha
      · refine ⟨hp, ?_⟩
        show (synod _ P).accepted a (n.onAccept n.myNum n.myVal).2.myNum
          (n.onAccept n.myNum n.myVal).2.myVal
        rw [hnum.1, hnum.2]
        exact hok htrue
    · rw [hphase'] at hd
      cases hd
  · exact ⟨hi', hphase'⟩

/-- Enough acceptances decide. -/
theorem Inv.decide (hi : Inv size passed (w.set p n) P) (hp : IsMember size p)
    (hphase : n.phase = .accepting) (hcount : n.quorum ≤ popcount n.acceptMask) :
    Inv size passed (w.set p { n with phase := .decided }) P := by
  obtain ⟨hacc, hprop, hout, hval⟩ := hi.self hp
  have hasks : n.phase.asks = true := by
    rw [hphase]
    rfl
  have hactive : n.phase ≠ .idle := by
    rw [hphase]
    nofun
  refine hi.update hp rfl rfl { hacc with } { hprop with
    num_eq := fun _ => hprop.num_eq hactive
    fresh := fun b v hb ho => ⟨nofun, (hprop.fresh b v hb ho).2.imp id fun h => ⟨h.1, rfl⟩⟩
    promises := nofun
    best := nofun
    asked := fun _ => hprop.asked hasks
    accepts := fun _ => hprop.accepts hasks
    decided := fun _ => ?_ } hout fun _ => hval hactive
  rw [Node.quorum, hprop.size_eq] at hcount
  exact hcount

/-- Messages that hold may be sent. -/
theorem Inv.send {out : List Message} (hi : Inv size passed (w.set p n) P) (hp : IsMember size p)
    (hfrom : ∀ m ∈ out, m.fromID = p)
    (hout : ∀ m ∈ out, MessageInv size (synod (w.set p n) P) m) :
    Inv size passed (w.set p { n with outbound := n.outbound ++ out }) P := by
  obtain ⟨hacc, hprop, hold, hval⟩ := hi.self hp
  refine hi.update hp rfl rfl { hacc with } { hprop with senders := fun m hm => ?_ }
    (fun m hm => ?_) hval
  · rcases List.mem_append.mp hm with hm | hm
    · exact hprop.senders m hm
    · exact hfrom m hm
  · rcases List.mem_append.mp hm with hm | hm
    · exact hold m hm
    · exact hout m hm

theorem Inv.send_one {m : Message} (hi : Inv size passed (w.set p n) P) (hp : IsMember size p)
    (hfrom : m.fromID = p) (hm : MessageInv size (synod (w.set p n) P) m) :
    Inv size passed (w.set p (n.send m)) P :=
  hi.send hp (by simpa using hfrom) (by simpa using hm)

theorem Inv.beginAccept (hi : Inv size passed (w.set p n) P) (hp : IsMember size p)
    (h64 : size ≤ 64) (hphase : n.phase = .preparing)
    (hcount : size / 2 + 1 ≤ popcount n.promiseMask) :
    ∃ P', Inv size passed (w.set p n.beginAccept) P' := by
  refine ⟨fun b v => P b v ∨ b = n.myNum ∧ v = n.adopt.myVal, ?_⟩
  obtain ⟨hi', hphase'⟩ := (hi.adopt hp hphase hcount).acceptOwn hp h64 rfl
  simp only [Node.beginAccept]
  generalize Node.acceptOwn { n.adopt with phase := .accepting, acceptMask := 0 } = n' at hi' hphase' ⊢
  split
  · exact hi'.decide hp hphase' ‹_›
  · obtain ⟨_, hprop, _, _⟩ := hi'.self hp
    refine hi'.send hp (fun m hm => ?_) fun m hm => ?_
    · obtain ⟨q, hq, rfl⟩ := List.mem_map.mp hm
      exact hprop.id_eq
    obtain ⟨q, hq, rfl⟩ := List.mem_map.mp hm
    refine ⟨?_, nofun, fun _ => ⟨?_, ?_⟩, nofun⟩
    · rw [hprop.id_eq]
      exact hp
    · exact hprop.asked (by rw [hphase']; rfl)
    · rw [hprop.id_eq]
      exact ⟨n'.round, hprop.num_eq (by rw [hphase']; nofun)⟩

theorem Inv.recordPromise {fromID accNum : Nat} {accVal : Value} {hasAcc : Bool}
    (hi : Inv size passed (w.set p n) P) (hp : IsMember size p) (h64 : size ≤ 64)
    (hphase : n.phase = .preparing) (hfrom : IsMember size fromID)
    (hpromised : Promised (synod (w.set p n) P) fromID n.myNum accNum hasAcc)
    (hreported : hasAcc = true → Reported (synod (w.set p n) P) n.myNum accNum accVal) :
    ∃ P', Inv size passed (w.set p (n.recordPromise fromID accNum accVal hasAcc)) P' := by
  have hi' := hi.countPromise hp h64 hphase hfrom hpromised hreported
  obtain ⟨_, hprop, _, _⟩ := hi'.self hp
  have hphase' : (n.countPromise fromID accNum accVal hasAcc).phase = .preparing := by
    simp only [Node.countPromise]
    split
    · exact hphase
    · exact hphase
  simp only [Node.recordPromise]
  split
  · exact ⟨P, hi'⟩
  · rename_i hge
    rw [Node.quorum, hprop.size_eq] at hge
    exact hi'.beginAccept hp h64 hphase' (Nat.le_of_not_lt hge)

theorem newRound_num_gt (hp : IsMember size p) (hid : n.id = p) (hsize : n.size = size) (v : Value) :
    n.promised < (n.newRound v).myNum ∧ n.round * size + p < (n.newRound v).myNum := by
  obtain ⟨hp1, hp2⟩ := hp
  have hnum : (n.newRound v).myNum =
      max (n.round + 1) (n.promised / size + 1) * size + p := by
    simp only [Node.newRound, hid, hsize]
  have hdiv := Nat.lt_mul_div_succ n.promised (show 0 < size by omega)
  have hround := Nat.mul_le_mul_right size (Nat.le_max_left (n.round + 1) (n.promised / size + 1))
  have hprom := Nat.mul_le_mul_right size (Nat.le_max_right (n.round + 1) (n.promised / size + 1))
  rw [Nat.succ_mul] at hround
  rw [Nat.mul_comm] at hdiv
  omega

theorem Inv.newRound {val : Value} (hi : Inv size passed (w.set p n) P) (hp : IsMember size p)
    (hval : passed val) : Inv size passed (w.set p (n.newRound val)) P := by
  obtain ⟨hacc, hprop, hout, _⟩ := hi.self hp
  have hgt := (newRound_num_gt hp hprop.id_eq hprop.size_eq val).2
  refine hi.update hp rfl rfl { hacc with } {
    id_eq := hprop.id_eq
    size_eq := hprop.size_eq
    peers_eq := hprop.peers_eq
    senders := hprop.senders
    num_eq := fun _ => ?_
    fresh := fun b v hb ho => ⟨nofun, Or.inl ?_⟩
    promises := fun _ a ha => absurd ha has_zero
    best := nofun
    asked := nofun
    accepts := nofun
    decided := nofun } hout fun _ => hval
  · simp only [Node.newRound, hprop.id_eq, hprop.size_eq]
  · obtain ⟨hactive, hle⟩ := hprop.fresh b v hb ho
    rw [hprop.num_eq hactive] at hle
    omega

theorem onPrepare_round (num : Nat) :
    (n.onPrepare num).2.phase = n.phase ∧ (n.onPrepare num).2.myNum = n.myNum := by
  unfold Node.onPrepare
  split
  · exact ⟨rfl, rfl⟩
  · exact ⟨rfl, rfl⟩

theorem Inv.propose {val : Value} (hi : Inv size passed (w.set p n) P) (hp : IsMember size p)
    (h64 : size ≤ 64) (hval : passed val) : ∃ P', Inv size passed (w.set p (n.propose val)) P' := by
  obtain ⟨hi', hok⟩ := (hi.newRound hp hval).onPrepare hp (n.newRound val).myNum
  obtain ⟨hphase, hnum⟩ := onPrepare_round (n := n.newRound val) (n.newRound val).myNum
  simp only [Node.propose]
  generalize (n.newRound val).onPrepare (n.newRound val).myNum = r at hi' hok hphase hnum ⊢
  obtain ⟨answer, n₁⟩ := r
  rw [← hnum] at hok
  -- the own acceptor answers first
  have hrecord : ∃ P', Inv size passed (w.set p (if answer.ok = true then
      n₁.recordPromise n₁.id answer.accNum answer.accVal answer.hasAcc else n₁)) P' := by
    split
    · obtain ⟨hpromised, hreported⟩ := hok ‹_›
      obtain ⟨_, hprop, _, _⟩ := hi'.self hp
      have hid : n₁.id = p := hprop.id_eq
      rw [hid]
      exact hi'.recordPromise hp h64 hphase hp hpromised hreported
    · exact ⟨P, hi'⟩
  obtain ⟨P', hi₂⟩ := hrecord
  obtain ⟨_, hprop, _, _⟩ := hi₂.self hp
  refine ⟨P', hi₂.send hp (fun m hm => ?_) fun m hm => ?_⟩
  · obtain ⟨q, _, rfl⟩ := List.mem_map.mp hm
    exact hprop.id_eq
  · obtain ⟨q, _, rfl⟩ := List.mem_map.mp hm
    refine ⟨?_, nofun, nofun, nofun⟩
    rw [hprop.id_eq]
    exact hp

theorem Inv.tick (hi : Inv size passed (w.set p n) P) (hp : IsMember size p) (h64 : size ≤ 64) :
    ∃ P', Inv size passed (w.set p n.tick) P' := by
  obtain ⟨hacc, hprop, hout, hval⟩ := hi.self hp
  simp only [Node.tick]
  split
  · exact ⟨P, hi⟩
  rename_i hactive
  have hi' : Inv size passed (w.set p { n with elapsed := n.elapsed + 1 }) P :=
    hi.update hp rfl rfl { hacc with } { hprop with } hout hval
  split
  · refine hi'.propose hp h64 (hval fun hidle => hactive ?_)
    rw [hidle]
    rfl
  · exact ⟨P, hi'⟩

theorem Inv.step {m : Message} (hi : Inv size passed (w.set p n) P) (hp : IsMember size p)
    (h64 : size ≤ 64) (hm : MessageInv size (synod (w.set p n) P) m) :
    ∃ P', Inv size passed (w.set p (n.step m)) P' := by
  unfold Node.step
  split
  · -- prepare
    obtain ⟨hi', hok⟩ := hi.onPrepare hp m.num
    generalize n.onPrepare m.num = r at hi' hok ⊢
    obtain ⟨answer, n'⟩ := r
    have hid : n'.id = p := (hi'.self hp).2.1.id_eq
    refine ⟨P, hi'.send_one hp hid ⟨?_, fun _ hans => ?_, nofun, nofun⟩⟩
    · show IsMember size n'.id
      rw [hid]
      exact hp
    · simp only [hid]
      exact hok hans
  · -- promise
    rename_i hkind
    split
    · exact ⟨P, hi⟩
    rename_i hlive
    obtain ⟨hnum, hphase, hok⟩ : m.num = n.myNum ∧ n.phase = .preparing ∧ m.ok = true := by
      simpa [and_assoc] using hlive
    obtain ⟨hpromised, hreported⟩ := hm.promise hkind hok
    rw [hnum] at hpromised hreported
    exact hi.recordPromise hp h64 hphase hm.sender hpromised hreported
  · -- accept
    rename_i hkind
    obtain ⟨hi', hok⟩ := hi.onAccept hp (hm.accept hkind).1
    generalize n.onAccept m.num m.val = r at hi' hok ⊢
    obtain ⟨ok, n'⟩ := r
    have hid : n'.id = p := (hi'.self hp).2.1.id_eq
    refine ⟨P, hi'.send_one hp hid ⟨?_, nofun, nofun, fun _ hans => ⟨m.val, ?_⟩⟩⟩
    · show IsMember size n'.id
      rw [hid]
      exact hp
    · simp only [hid]
      exact hok hans
  · -- accepted
    rename_i hkind
    split
    · exact ⟨P, hi⟩
    rename_i hlive
    obtain ⟨hnum, hphase, hok⟩ : m.num = n.myNum ∧ n.phase = .accepting ∧ m.ok = true := by
      simpa [and_assoc] using hlive
    obtain ⟨hacc, hprop, hout, hval⟩ := hi.self hp
    have hasks : n.phase.asks = true := by
      rw [hphase]
      rfl
    obtain ⟨v, hv⟩ := hm.accepted hkind hok
    rw [hnum] at hv
    have hsame : v = n.myVal :=
      hi.valid.unique _ _ _ (hi.valid.backed _ _ _ hv) (hprop.asked hasks)
    have hi' : Inv size passed
        (w.set p { n with acceptMask := n.acceptMask ||| bit m.fromID }) P := by
      refine hi.update hp rfl rfl { hacc with } { hprop with
        accepts := fun _ a ha => ?_, decided := fun hd => ?_ } hout hval
      · rcases (has_or_bit hm.sender.1 (Nat.le_trans hm.sender.2 h64)).mp ha with ha | rfl
        · exact hprop.accepts hasks a ha
        · exact ⟨hm.sender, hsame ▸ hv⟩
      · rw [hphase] at hd
        cases hd
    simp only
    split
    · exact ⟨P, hi'.decide hp hphase ‹_›⟩
    · exact ⟨P, hi'⟩

end Proposer

/-! ## Worlds -/

section Worlds

variable {passed : Value → Prop} {w w' : World} {P : Proposals}

@[simp] theorem set_self {p : Nat} : w.set p (w.nodes p) = w := by
  simp [World.set]

theorem Inv.with_net {net : List Message} (hi : Inv size passed w P)
    (hnet : ∀ m ∈ net, MessageInv size (synod w P) m) :
    Inv size passed { w with net := net } P :=
  { hi with net := hnet }

/-- A node hands its messages to the net. -/
theorem Inv.drain {p : Nat} (hi : Inv size passed w P) (hp : IsMember size p) :
    Inv size passed { w.set p { w.nodes p with outbound := [] } with
      net := w.net ++ (w.nodes p).outbound } P := by
  have hset : Inv size passed (w.set p (w.nodes p)) P := by
    rw [set_self]
    exact hi
  obtain ⟨hacc, hprop, hout, hval⟩ := hset.self hp
  have hempty : Inv size passed (w.set p { w.nodes p with outbound := [] }) P :=
    hset.update hp rfl rfl { hacc with } { hprop with senders := nofun } nofun hval
  have hsame : synod (w.set p { w.nodes p with outbound := [] }) P =
      synod (w.set p (w.nodes p)) P := synod_set rfl rfl
  refine hempty.with_net fun m hm => ?_
  rcases List.mem_append.mp hm with hm | hm
  · exact hempty.net m hm
  · rw [hsame]
    exact hout m hm

theorem Inv.world_step {e : Event} (hi : Inv size passed w P) (h64 : size ≤ 64)
    (hpassed : ∀ id v, e = .propose id v → passed v) (hstep : w.step e = some w') :
    ∃ P', Inv size passed w' P' := by
  have hset : ∀ p, Inv size passed (w.set p (w.nodes p)) P := by
    intro p
    rw [set_self]
    exact hi
  have hmem : ∀ {p}, p ∈ w.ids → IsMember size p := fun h => mem_members.mp (hi.ids ▸ h)
  cases e with
  | propose id v =>
    simp only [World.step, Option.ite_none_right_eq_some, Option.some.injEq] at hstep
    obtain ⟨hid, rfl⟩ := hstep
    exact (hset id).propose (hmem hid) h64 (hpassed id v rfl)
  | tick id =>
    simp only [World.step, Option.ite_none_right_eq_some, Option.some.injEq] at hstep
    obtain ⟨hid, rfl⟩ := hstep
    exact (hset id).tick (hmem hid) h64
  | drain id =>
    simp only [World.step, Option.ite_none_right_eq_some, Option.some.injEq] at hstep
    obtain ⟨hid, rfl⟩ := hstep
    exact ⟨P, hi.drain (hmem hid)⟩
  | deliver position duplicate =>
    simp only [World.step] at hstep
    split at hstep
    · rename_i m hget
      simp only [Option.ite_none_right_eq_some, Option.some.injEq] at hstep
      obtain ⟨hid, rfl⟩ := hstep
      have hm := hi.net m (List.mem_of_getElem? hget)
      obtain ⟨P', hi'⟩ := (hset m.toID).step (hmem hid) h64 (by rwa [set_self])
      refine ⟨P', hi'.with_net fun m' hm' => hi'.net m' ?_⟩
      split at hm'
      · exact hm'
      · exact List.mem_of_mem_eraseIdx hm'
    · cases hstep

theorem Inv.start : Inv size passed (World.start size) (fun _ _ => False) where
  ids := rfl
  valid := {
    backed := nofun
    unique := nofun
    safe := nofun }
  acceptor _ _ := {
    latest := nofun
    recorded := nofun
    promised := nofun
    sorted := List.Pairwise.nil }
  proposer _ _ := {
    id_eq := rfl
    size_eq := rfl
    peers_eq := rfl
    senders := nofun
    num_eq := fun h => absurd rfl h
    fresh := nofun
    promises := nofun
    best := nofun
    asked := nofun
    accepts := nofun
    decided := nofun }
  outbound := nofun
  net := nofun
  value _ _ h := absurd rfl h
  values := nofun

end Worlds

end Promtact.Paxos
