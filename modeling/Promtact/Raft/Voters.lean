import Promtact.BitSet
import Promtact.QuorumLog.Steps
import Promtact.Raft.Node

/-!
# Voters and quorums

The voters a log establishes, and the instance of the replicated-log library that
the nodes run: a quorum of a prefix is a majority of the newest voters the prefix
names. The main result is `effective_of_majority`: the set that the code accepts
(`jointMajority` of the effective voters) suffices for the library's guard,
although the code keeps the old majority until a final entry commits and uses a
joint entry before it commits.
-/

namespace Promtact.Raft

open QuorumLog

theorem bind_eq_ok {α β : Type} {a : Except Panic α} {f : α → Except Panic β} {b : β} :
    (a >>= f) = .ok b ↔ ∃ x, a = .ok x ∧ f x = .ok b := by
  cases a with
  | error e => exact ⟨(nomatch ·), fun ⟨_, h, _⟩ => nomatch h⟩
  | ok x => exact ⟨fun h => ⟨x, rfl, h⟩, fun ⟨_, h, h'⟩ => by cases h; exact h'⟩

theorem bind_ok {α β : Type} {a : Except Panic α} {f : α → Except Panic β} {x : α}
    (ha : a = .ok x) (hf : ∃ b, f x = .ok b) : ∃ b, (a >>= f) = .ok b := by
  obtain ⟨b, hb⟩ := hf
  exact ⟨b, bind_eq_ok.mpr ⟨x, ha, hb⟩⟩

/-! ## Masks as sets of nodes -/

/-- The bit of a node ID in range. -/
def bitOf (id : Nat) : Word := 1#64 <<< (id - 1)

/-- The mask has the node's bit. -/
def Member (mask : Word) (id : Nat) : Prop :=
  0 < id ∧ id ≤ 64 ∧ mask.getLsbD (id - 1) = true

theorem nodeBit_of_range {id : Nat} (h0 : 0 < id) (h64 : id ≤ 64) :
    nodeBit id = .ok (bitOf id) := by
  unfold nodeBit
  rw [if_neg (by omega)]
  rfl

theorem range_of_nodeBit {id : Nat} {bit : Word} (h : nodeBit id = .ok bit) :
    0 < id ∧ id ≤ 64 ∧ bit = bitOf id := by
  unfold nodeBit at h
  split at h
  · cases h
  · cases h
    exact ⟨by omega, by omega, rfl⟩

theorem getLsbD_bitOf {id : Nat} (i : Nat) (hi : i < 64) :
    (bitOf id).getLsbD i = decide (i = id - 1) := by
  unfold bitOf
  rw [BitVec.getLsbD_shiftLeft, BitVec.getLsbD_one]
  by_cases h : i = id - 1
  · simp [h]
    omega
  · by_cases h' : i < id - 1
    · simp [h', h]
    · have : i - (id - 1) ≠ 0 := by omega
      simp [h, this]

theorem member_bitOf {id p : Nat} (h0 : 0 < p) (h64 : p ≤ 64) :
    Member (bitOf p) id ↔ id = p := by
  constructor
  · rintro ⟨h0', h64', hbit⟩
    rw [getLsbD_bitOf _ (by omega)] at hbit
    have := of_decide_eq_true hbit
    omega
  · rintro rfl
    refine ⟨h0, h64, ?_⟩
    rw [getLsbD_bitOf _ (by omega)]
    simp

theorem member_or {v w : Word} {id : Nat} :
    Member (v ||| w) id ↔ Member v id ∨ Member w id := by
  unfold Member
  rw [BitVec.getLsbD_or, Bool.or_eq_true]
  tauto

theorem member_ne_zero {v : Word} {id : Nat} (hm : Member v id) : v ≠ 0 := by
  rintro rfl
  have := hm.2.2
  simp at this

theorem eq_of_members {v w : Word} (h : ∀ id, Member v id ↔ Member w id) : v = w := by
  refine BitVec.eq_of_getLsbD_eq fun i hi => ?_
  have hbit := h (i + 1)
  simp only [Member, Nat.add_sub_cancel, Nat.succ_pos, true_and, show i + 1 ≤ 64 from hi] at hbit
  exact Bool.eq_iff_iff.mpr hbit

/-- How the code tests a bit. -/
theorem and_bitOf_ne_zero {w : Word} {id : Nat} (h0 : 0 < id) (h64 : id ≤ 64) :
    w &&& bitOf id ≠ 0 ↔ Member w id := by
  constructor
  · intro hne
    obtain ⟨i, hi, hbit⟩ := BitSet.exists_of_ne_zero hne
    rw [BitVec.getLsbD_and, getLsbD_bitOf _ hi, Bool.and_eq_true, decide_eq_true_eq] at hbit
    exact ⟨h0, h64, by rw [← hbit.2]; exact hbit.1⟩
  · rintro ⟨_, _, hbit⟩ hzero
    have : (w &&& bitOf id).getLsbD (id - 1) = true := by
      rw [BitVec.getLsbD_and, hbit, getLsbD_bitOf _ (by omega)]
      simp
    rw [hzero] at this
    simp at this

theorem bitsSetLoop_eq_card (rounds : Nat) (mask : Word)
    (h : (BitSet.ones mask).card ≤ rounds) : bitsSetLoop rounds mask = (BitSet.ones mask).card := by
  induction rounds generalizing mask with
  | zero => rw [bitsSetLoop]; omega
  | succ rounds ih =>
    rw [bitsSetLoop]
    split
    · rename_i h0
      rw [h0, BitSet.ones_zero, Finset.card_empty]
    · rename_i h0
      have hcard := BitSet.card_ones_clear h0
      rw [ih _ (by omega), hcard]

/-- The loop of `bitsSet` counts the one-bits. -/
theorem bitsSet_eq_card (mask : Word) : bitsSet mask = (BitSet.ones mask).card :=
  bitsSetLoop_eq_card 64 mask (by
    have := Finset.card_le_univ (BitSet.ones mask)
    simpa using this)

/-- Two majorities of the same voters share a voter. -/
theorem majorityMask_inter {v w w' : Word} (hw : majorityMask v w = true)
    (hw' : majorityMask v w' = true) : ∃ id, Member v id ∧ Member w id ∧ Member w' id := by
  simp only [majorityMask, bitsSet_eq_card, Bool.and_eq_true, decide_eq_true_eq] at hw hw'
  obtain ⟨i, hv, hi, hi'⟩ := BitSet.majorities_meet hw.2 hw'.2
  have hmember : ∀ {mask : Word}, mask.getLsbD i = true → Member mask (i.val + 1) := by
    intro mask hbit
    have hlt : i.val < 64 := i.isLt
    exact ⟨by omega, by omega, by simpa using hbit⟩
  exact ⟨i.val + 1, hmember hv, hmember hi, hmember hi'⟩

/-- A node that is a majority by itself is the only voter. -/
theorem sole_voter {v : Word} {n id : Nat} (h0 : 0 < n) (h64 : n ≤ 64)
    (hmaj : majorityMask v (bitOf n) = true) (hid : Member v id) : id = n := by
  simp only [majorityMask, bitsSet_eq_card, Bool.and_eq_true, decide_eq_true_eq] at hmaj
  have hown : ∀ i ∈ BitSet.ones (v &&& bitOf n), i ∈ BitSet.ones v ∧ i.val = n - 1 := by
    intro i hi
    rw [BitSet.mem_ones, BitVec.getLsbD_and, getLsbD_bitOf _ i.isLt, Bool.and_eq_true,
      decide_eq_true_eq] at hi
    exact ⟨BitSet.mem_ones.mpr hi.1, hi.2⟩
  have hle : (BitSet.ones (v &&& bitOf n)).card ≤ 1 :=
    Finset.card_le_one.mpr fun a ha b hb => Fin.ext ((hown a ha).2.trans (hown b hb).2.symm)
  obtain ⟨i, hi⟩ := Finset.card_pos.mp (show 0 < (BitSet.ones (v &&& bitOf n)).card by omega)
  have hone : (BitSet.ones v).card ≤ 1 := by omega
  have hmem : (⟨id - 1, by have := hid.2.1; have := hid.1; omega⟩ : Fin 64) ∈ BitSet.ones v :=
    BitSet.mem_ones.mpr hid.2.2
  have heq := Finset.card_le_one.mp hone _ (hown i hi).1 _ hmem
  have hval : i.val = id - 1 := by rw [heq]
  have := (hown i hi).2
  have := hid.1
  omega

/-! ## The voters a log establishes -/

/-- What a committed entry does to the voters `(C_old, C_new)`. -/
def configStep (c : Word × Word) (e : Entry) : Word × Word :=
  match e.kind with
  | .jointConfig => (e.oldVoters, e.newVoters)
  | .finalConfig => (e.oldVoters, 0)
  | _ => c

/-- The voters after folding a committed log, from the initial voters. -/
def configAfter (voters : Word) (x : List Entry) : Word × Word := x.foldl configStep (voters, 0)

/-- The newest voters: the new ones during a transition. -/
def newest (voters : Word) (x : List Entry) : Word :=
  if (configAfter voters x).2 = 0 then (configAfter voters x).1 else (configAfter voters x).2

/-- What callers propose: an opaque command, or a mutation of a client. -/
def Proposed (e : Entry) : Prop :=
  e.operation = .legacy ∨
    ((e.operation = .put ∨ e.operation = .delete) ∧ e.clientID ≠ 0 ∧ e.requestID ≠ 0)

/-- The entry may follow a log that establishes the voters `c`. -/
def Fits (c : Word × Word) (e : Entry) : Prop :=
  match e.kind with
  | .normal => e.oldVoters = 0 ∧ e.newVoters = 0 ∧ Proposed e
  | .noop => e.command = 0 ∧ e.oldVoters = 0 ∧ e.newVoters = 0 ∧ e.operation = .legacy
  | .jointConfig => c.2 = 0 ∧ e.oldVoters = c.1 ∧ e.oldVoters ≠ 0 ∧ e.newVoters ≠ 0
  | .finalConfig => c.2 ≠ 0 ∧ e.oldVoters = c.2 ∧ e.newVoters = 0
  | .other _ => False

/-- Every entry fits the log before it. -/
def WellFormed (voters : Word) (x : List Entry) : Prop :=
  ∀ i e, x[i]? = some e → Fits (configAfter voters (x.take i)) e

/-- What the code reads in front of the commit index: the last joint entry. -/
def overrideEntry (c : Word × Word) (e : Entry) : Word × Word :=
  if e.kind = .jointConfig then (e.oldVoters, e.newVoters) else c

/-- The voters of a holder of `x` that knows `x.take k` to be committed. -/
def effective (voters : Word) (x : List Entry) (k : Nat) : Word × Word :=
  (x.drop k).foldl overrideEntry (configAfter voters (x.take k))

/-- The entry changes the voters. -/
def IsConfig (e : Entry) : Prop := e.kind = .jointConfig ∨ e.kind = .finalConfig

theorem isConfig_iff {e : Entry} : e.isConfig = true ↔ IsConfig e := by
  simp [Entry.isConfig, IsConfig]

/-- The replicated log that the nodes run. -/
def protocol (voters : Word) : Protocol Nat Entry where
  term := Entry.term
  conf := IsConfig
  Quorum g S := ∃ w, majorityMask (newest voters g) w = true ∧ ∀ id, Member w id → id ∈ S
  quorum_mono := by
    rintro g S T hST ⟨w, hw, hS⟩
    exact ⟨w, hw, fun id hid => hST (hS id hid)⟩
  quorum_inter := by
    rintro g S T ⟨w, hw, hS⟩ ⟨w', hw', hT⟩
    obtain ⟨id, _, hid, hid'⟩ := majorityMask_inter hw hw'
    exact ⟨id, hS id hid, hT id hid'⟩

section

variable {voters : Word} {x y : List Entry} {e : Entry}

theorem configAfter_append : configAfter voters (x ++ y) = y.foldl configStep (configAfter voters x) :=
  List.foldl_append

theorem configAfter_concat : configAfter voters (x ++ [e]) = configStep (configAfter voters x) e :=
  configAfter_append

theorem configStep_of_not_config {c : Word × Word} (he : ¬ IsConfig e) : configStep c e = c := by
  simp only [IsConfig, not_or] at he
  unfold configStep
  split <;> simp_all

theorem foldl_configStep_of_not_config {c : Word × Word} (hy : ∀ e ∈ y, ¬ IsConfig e) :
    y.foldl configStep c = c := by
  induction y generalizing c with
  | nil => rfl
  | cons e y ih =>
    rw [List.foldl_cons, configStep_of_not_config (hy e List.mem_cons_self)]
    exact ih (fun f hf => hy f (List.mem_cons_of_mem e hf))

/-- Past the last change of voters nothing changes. -/
theorem configAfter_take {q : Nat} (hno : ∀ a, q < a → ¬ (protocol voters).ConfAt x a) :
    configAfter voters (x.take q) = configAfter voters x := by
  conv_rhs => rw [← List.take_append_drop q x]
  rw [configAfter_append, foldl_configStep_of_not_config]
  intro e he hce
  obtain ⟨i, hi⟩ := List.mem_iff_getElem?.mp he
  rw [List.getElem?_drop] at hi
  exact hno (q + i + 1) (by omega) ⟨e, hi, hce⟩

theorem WellFormed.of_pre (hx : WellFormed voters x) (hy : y <+: x) : WellFormed voters y := by
  intro i e hi
  obtain ⟨z, rfl⟩ := hy
  have hlt : i < y.length := (List.getElem?_eq_some_iff.mp hi).1
  have := hx i e (by rw [List.getElem?_append_left hlt]; exact hi)
  rwa [List.take_append_of_le_length (by omega)] at this

theorem WellFormed.last (hx : WellFormed voters (x ++ [e])) : Fits (configAfter voters x) e := by
  have := hx x.length e (by simp)
  rwa [List.take_left] at this

theorem WellFormed.concat (hx : WellFormed voters x) (he : Fits (configAfter voters x) e) :
    WellFormed voters (x ++ [e]) := by
  intro i f hi
  rcases Nat.lt_trichotomy i x.length with hlt | heq | hgt
  · rw [List.getElem?_append_left hlt] at hi
    rw [List.take_append_of_le_length (by omega)]
    exact hx i f hi
  · subst heq
    simp only [List.getElem?_concat_length, Option.some.injEq] at hi
    subst hi
    rwa [List.take_left]
  · rw [List.getElem?_eq_none (by simp; omega)] at hi
    cases hi

theorem wellFormed_nil : WellFormed voters [] := by
  intro i e hi
  simp at hi

theorem Fits.joint {c : Word × Word} (he : Fits c e) (hkind : e.kind = .jointConfig) :
    c.2 = 0 ∧ e.oldVoters = c.1 ∧ e.oldVoters ≠ 0 ∧ e.newVoters ≠ 0 := by
  unfold Fits at he
  rwa [hkind] at he

theorem Fits.final {c : Word × Word} (he : Fits c e) (hkind : e.kind = .finalConfig) :
    c.2 ≠ 0 ∧ e.oldVoters = c.2 ∧ e.newVoters = 0 := by
  unfold Fits at he
  rwa [hkind] at he

/-- Voters are never forgotten. -/
theorem configAfter_old_ne_zero (hv : voters ≠ 0) (hx : WellFormed voters x) :
    (configAfter voters x).1 ≠ 0 := by
  induction x using List.reverseRecOn with
  | nil => exact hv
  | append_singleton x e ih =>
    have hfit := hx.last
    have hpre := ih (hx.of_pre (List.prefix_append _ _))
    rw [configAfter_concat]
    unfold configStep
    cases hk : e.kind with
    | jointConfig => exact (hfit.joint hk).2.2.1
    | finalConfig =>
      show e.oldVoters ≠ 0
      rw [(hfit.final hk).2.1]
      exact (hfit.final hk).1
    | normal => exact hpre
    | noop => exact hpre
    | other c => exact hpre

/-! ## The code's quorums -/

theorem effective_concat {k : Nat} (hk : k ≤ x.length) :
    effective voters (x ++ [e]) k = overrideEntry (effective voters x k) e := by
  unfold effective
  rw [List.take_append_of_le_length hk, List.drop_append_of_le_length hk, List.foldl_append]
  rfl

theorem effective_self : effective voters x x.length = configAfter voters x := by
  simp [effective]

/-- During a transition the effective voters are those of the transition. -/
theorem effective_of_joint {k : Nat} (hx : WellFormed voters x) (hk : k ≤ x.length)
    (hj : (configAfter voters x).2 ≠ 0) : effective voters x k = configAfter voters x := by
  induction x using List.reverseRecOn with
  | nil =>
    have : k = 0 := by simpa using hk
    subst this
    rfl
  | append_singleton x e ih =>
    rcases Nat.eq_or_lt_of_le hk with heq | hlt
    · rw [heq]; exact effective_self
    · have hk' : k ≤ x.length := by simp at hlt; omega
      rw [effective_concat hk']
      rw [configAfter_concat] at hj ⊢
      have hih := ih (hx.of_pre (List.prefix_append _ _)) hk'
      unfold overrideEntry
      unfold configStep at hj ⊢
      cases hkind : e.kind with
      | jointConfig => simp
      | finalConfig => simp [hkind] at hj
      | normal => simp only [hkind] at hj; simpa using hih hj
      | noop => simp only [hkind] at hj; simpa using hih hj
      | other c => simp only [hkind] at hj; simpa using hih hj

theorem confAt_concat {a : Nat} :
    (protocol voters).ConfAt (x ++ [e]) a ↔
      (protocol voters).ConfAt x a ∨ a = x.length + 1 ∧ IsConfig e := by
  cases a with
  | zero => simp [Protocol.ConfAt]
  | succ a =>
    rw [Protocol.confAt_succ, Protocol.confAt_succ]
    rcases Nat.lt_trichotomy a x.length with hlt | heq | hgt
    · rw [List.getElem?_append_left hlt]
      constructor
      · exact Or.inl
      · rintro (h | ⟨h, _⟩)
        · exact h
        · omega
    · subst heq
      simp [protocol]
    · rw [List.getElem?_eq_none (by simp; omega), List.getElem?_eq_none (by omega)]
      constructor
      · rintro ⟨_, h, _⟩; cases h
      · rintro (⟨_, h, _⟩ | ⟨h, _⟩)
        · cases h
        · omega

theorem newest_cases (c : Word × Word) (h : (if c.2 = 0 then c.1 else c.2) = newest voters x) :
    newest voters x = c.1 ∨ c.2 ≠ 0 ∧ newest voters x = c.2 := by
  split at h
  · exact Or.inl h.symm
  · exact Or.inr ⟨‹_›, h.symm⟩

/-- Every set of voters the library asks for is one of the effective ones. -/
theorem newest_effective {k q : Nat} (hx : WellFormed voters x) (hk : k ≤ x.length)
    (hq : q ≤ x.length) (ht : (protocol voters).OneTail x q k) :
    newest voters (x.take q) = (effective voters x k).1 ∨
      (effective voters x k).2 ≠ 0 ∧ newest voters (x.take q) = (effective voters x k).2 := by
  induction x using List.reverseRecOn generalizing q with
  | nil =>
    have hk0 : k = 0 := by simpa using hk
    subst hk0
    simp [newest, configAfter, effective]
  | append_singleton x e ih =>
    have hwf : WellFormed voters x := hx.of_pre (List.prefix_append _ _)
    have hfit := hx.last
    -- what follows `q` in the longer log decides the voters of the prefix
    have hsame : (∀ a, q < a → ¬ (protocol voters).ConfAt (x ++ [e]) a) →
        newest voters ((x ++ [e]).take q) = newest voters (x ++ [e]) := by
      intro hno
      unfold newest
      rw [configAfter_take hno]
    rcases Nat.eq_or_lt_of_le hk with heq | hlt
    · -- everything is known: no change follows `q`
      have hno : ∀ a, q < a → ¬ (protocol voters).ConfAt (x ++ [e]) a := by
        intro a ha hca
        have := (ht a ha hca).1
        have := hca.le_length
        omega
      rw [hsame hno, heq, effective_self]
      exact newest_cases _ rfl
    · have hk' : k ≤ x.length := by simp at hlt; omega
      rw [effective_concat hk']
      by_cases hce : IsConfig e
      · -- the new entry is the only change that may follow `q`
        have hlast : (protocol voters).ConfAt (x ++ [e]) (x.length + 1) :=
          confAt_concat.mpr (Or.inr ⟨rfl, hce⟩)
        by_cases hqe : q = x.length + 1
        · rw [hqe, show x.length + 1 = (x ++ [e]).length by simp, List.take_length]
          rcases hce with hkind | hkind
          · obtain ⟨_, _, _, hne⟩ := hfit.joint hkind
            refine Or.inr ?_
            simp only [overrideEntry, hkind, if_true, newest, configAfter_concat, configStep]
            exact ⟨hne, if_neg hne⟩
          · obtain ⟨hne, hold, _⟩ := hfit.final hkind
            rw [effective_of_joint hwf hk' hne]
            refine Or.inr ?_
            simp only [overrideEntry, hkind, newest, configAfter_concat, configStep]
            exact ⟨hne, hold⟩
        · have hqx : q ≤ x.length := by simp at hq; omega
          have hno : ∀ a, q < a → ¬ (protocol voters).ConfAt x a := by
            intro a ha hca
            have hb := (ht (x.length + 1) (by omega) hlast).2 a ha
              (confAt_concat.mpr (Or.inl hca))
            have := hca.le_length
            omega
          have hcfg : configAfter voters ((x ++ [e]).take q) = configAfter voters x := by
            rw [List.take_append_of_le_length hqx, configAfter_take hno]
          unfold newest
          rw [hcfg]
          rcases hce with hkind | hkind
          · obtain ⟨hzero, hold, _⟩ := hfit.joint hkind
            refine Or.inl ?_
            simp only [overrideEntry, hkind, if_true]
            rw [if_pos hzero, hold]
          · obtain ⟨hne, _, _⟩ := hfit.final hkind
            rw [effective_of_joint hwf hk' hne]
            refine Or.inr ?_
            simp only [overrideEntry, hkind]
            exact ⟨hne, if_neg hne⟩
      · have hov : overrideEntry (effective voters x k) e = effective voters x k := by
          simp only [IsConfig, not_or] at hce
          simp [overrideEntry, hce.1]
        rw [hov]
        have hconf : ∀ a, (protocol voters).ConfAt (x ++ [e]) a ↔ (protocol voters).ConfAt x a := by
          intro a
          rw [confAt_concat]
          simp [hce]
        have ht' : ∀ {q'}, q' = q ∨ q' + 1 = q ∧ q = x.length + 1 →
            (protocol voters).OneTail x q' k := by
          intro q' hq' a ha hca
          have hle := hca.le_length
          have hqa : q < a := by omega
          obtain ⟨h1, h2⟩ := ht a hqa ((hconf a).mpr hca)
          refine ⟨h1, fun b hb hcb => h2 b ?_ ((hconf b).mpr hcb)⟩
          have := hcb.le_length
          omega
        by_cases hqe : q = x.length + 1
        · have hnew : newest voters ((x ++ [e]).take q) = newest voters (x.take x.length) := by
            rw [hqe, show x.length + 1 = (x ++ [e]).length by simp, List.take_length, List.take_length]
            unfold newest
            rw [configAfter_concat, configStep_of_not_config hce]
          rw [hnew]
          exact ih hwf hk' (Nat.le_refl _) (ht' (Or.inr ⟨hqe.symm, hqe⟩))
        · have hqx : q ≤ x.length := by simp at hq; omega
          rw [List.take_append_of_le_length hqx]
          exact ih hwf hk' hqx (ht' (Or.inl rfl))

/-- A majority of the effective voters suffices. -/
theorem effective_of_majority {k : Nat} {w : Word} (hx : WellFormed voters x) (hk : k ≤ x.length)
    (hw : Node.jointMajority (effective voters x k) w = true) :
    (protocol voters).Effective x k {id | Member w id} := by
  simp only [Node.jointMajority, Bool.and_eq_true, Bool.or_eq_true, decide_eq_true_eq] at hw
  intro q hq ht
  refine ⟨w, ?_, fun id hid => hid⟩
  rcases newest_effective hx hk hq ht with h | ⟨hne, h⟩
  · rw [h]; exact hw.1
  · rw [h]; exact hw.2.resolve_left hne

end

end Promtact.Raft
