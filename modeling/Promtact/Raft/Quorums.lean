import Promtact.Raft.Voters

/-!
# Quorums of lists and of masks

The repository decides twice whether enough voters have acknowledged: `Membership` counts in
lists of IDs, and the node counts bits of masks. `canCommit_eq_masks` says that they agree, on
the masks that `voterMask` makes of the lists, and that two quorums of masks meet in both sets
of voters.
-/

namespace Promtact.Raft

/-! ## Lists -/

/-- One set of voters, or two during a change. -/
structure Membership where
  old : List Nat
  new : List Nat

/-- The loop of `majority` counts the voters that have acknowledged. -/
def majority (voters : List Nat) (acked : Nat → Bool) : Bool :=
  if voters.length = 0 then false
  else
    let count := voters.foldl (fun count id => if acked id then count + 1 else count) 0
    voters.length / 2 + 1 ≤ count

namespace Membership

def joint (m : Membership) : Bool := m.new.length ≠ 0

def canCommit (m : Membership) (acked : Nat → Bool) : Bool :=
  if !majority m.old acked then false
  else !m.joint || majority m.new acked

end Membership

/-- The IDs are those of nodes, each once. -/
structure VoterList (ids : List Nat) : Prop where
  nodup : ids.Nodup
  range : ∀ id ∈ ids, 0 < id ∧ id ≤ 64

theorem majority_eq (voters : List Nat) (acked : Nat → Bool) : majority voters acked =
    (decide (voters ≠ []) && decide (voters.length / 2 + 1 ≤ voters.countP acked)) := by
  have hcount : ∀ start, voters.foldl (fun count id => if acked id then count + 1 else count) start =
      start + voters.countP acked := by
    induction voters with
    | nil => exact fun start => rfl
    | cons id voters ih =>
      intro start
      rw [List.foldl_cons, ih, List.countP_cons]
      split <;> omega
  unfold majority
  rw [hcount, Nat.zero_add]
  by_cases hnil : voters = []
  · simp [hnil]
  · rw [if_neg (by simpa using hnil)]
    simp [hnil]

/-! ## Masks -/

/-- The mask of a list of voters; the empty list has none. -/
def maskOf (ids : List Nat) : Word :=
  match voterMask ids with
  | .ok (some mask) => mask
  | _ => 0

/-- A run of the loop of `bitsSet`, and the count that it ends with. -/
inductive ClearsBits : Word → Nat → Prop
  | done : ClearsBits 0 0
  | clear {mask : Word} {count : Nat} (hne : mask ≠ 0)
    (hrest : ClearsBits (mask &&& (mask - 1)) count) : ClearsBits mask (count + 1)

theorem clearsBits_bitsSetLoop (rounds : Nat) (mask : Word)
    (h : (BitSet.ones mask).card ≤ rounds) : ClearsBits mask (bitsSetLoop rounds mask) := by
  induction rounds generalizing mask with
  | zero =>
    have hzero : mask = 0 := by
      by_contra hne
      have hcard := BitSet.card_ones_clear hne
      omega
    rw [hzero]
    exact .done
  | succ rounds ih =>
    rw [bitsSetLoop]
    split
    · rename_i hzero
      rw [hzero]
      exact .done
    · rename_i hne
      have hcard := BitSet.card_ones_clear hne
      exact .clear hne (ih _ (by omega))

theorem clearsBits_bitsSet (mask : Word) : ClearsBits mask (bitsSet mask) := by
  refine clearsBits_bitsSetLoop 64 mask ?_
  simpa using Finset.card_le_univ (BitSet.ones mask)

theorem voterMaskLoop_of_nodup {ids : List Nat} {mask : Word} (hids : VoterList ids)
    (hnew : ∀ id ∈ ids, ¬ Member mask id) : ∃ w, voterMaskLoop ids mask = .ok (some w) ∧
      ∀ id, Member w id ↔ Member mask id ∨ id ∈ ids := by
  induction ids generalizing mask with
  | nil => exact ⟨mask, rfl, fun id => by simp⟩
  | cons p ids ih =>
    obtain ⟨h0, h64⟩ := hids.range p List.mem_cons_self
    obtain ⟨hp, hnodup⟩ := List.nodup_cons.mp hids.nodup
    have hfree : ¬ (mask &&& bitOf p ≠ 0) := fun hbit =>
      hnew p List.mem_cons_self ((and_bitOf_ne_zero h0 h64).mp hbit)
    have hrest : ∀ id ∈ ids, ¬ Member (mask ||| bitOf p) id := by
      intro id hid hmem
      rcases member_or.mp hmem with hold | hbit
      · exact hnew id (List.mem_cons_of_mem p hid) hold
      · rw [(member_bitOf h0 h64).mp hbit] at hid
        exact hp hid
    obtain ⟨w, hw, hmember⟩ :=
      ih ⟨hnodup, fun id hid => hids.range id (List.mem_cons_of_mem p hid)⟩ hrest
    refine ⟨w, ?_, fun id => ?_⟩
    · rw [voterMaskLoop, nodeBit_of_range h0 h64]
      simp only [bind, Except.bind, if_neg hfree]
      exact hw
    · rw [hmember, member_or, member_bitOf h0 h64, List.mem_cons, or_assoc]

/-- The mask of a list has the bits of its voters. -/
theorem voterMask_of_nodup {ids : List Nat} (hids : VoterList ids) :
    voterMask ids = .ok (if ids = [] then none else some (maskOf ids)) ∧
      ∀ id, Member (maskOf ids) id ↔ id ∈ ids := by
  by_cases hnil : ids = []
  · subst hnil
    exact ⟨rfl, fun id => ⟨fun h => absurd rfl (member_ne_zero h), nofun⟩⟩
  · have hempty : ∀ id ∈ ids, ¬ Member 0 id := fun id _ hzero => member_ne_zero hzero rfl
    obtain ⟨w, hloop, hmember⟩ := voterMaskLoop_of_nodup hids hempty
    have hmask : voterMask ids = .ok (some w) := by
      unfold voterMask
      rw [if_neg hnil, hloop]
    have hw : maskOf ids = w := by
      unfold maskOf
      rw [hmask]
    refine ⟨by rw [hmask, if_neg hnil, hw], fun id => ?_⟩
    rw [hw, hmember, or_iff_right fun hzero => member_ne_zero hzero rfl]

/-- Counting bits is counting voters. -/
theorem card_ones_and {ids : List Nat} {v w : Word} (hids : VoterList ids)
    (hv : ∀ id, Member v id ↔ id ∈ ids) :
    (BitSet.ones (v &&& w)).card = ids.countP fun id => w.getLsbD (id - 1) := by
  have himage : (BitSet.ones (v &&& w)).image (fun i => i.val + 1) =
      (ids.filter fun id => w.getLsbD (id - 1)).toFinset := by
    ext id
    simp only [Finset.mem_image, BitSet.mem_ones, BitVec.getLsbD_and, Bool.and_eq_true,
      List.mem_toFinset, List.mem_filter]
    constructor
    · rintro ⟨i, ⟨hbit, hw⟩, rfl⟩
      have hlt : i.val < 64 := i.isLt
      exact ⟨(hv _).mp ⟨by omega, by omega, by simpa using hbit⟩, by simpa using hw⟩
    · rintro ⟨hid, hw⟩
      obtain ⟨h0, h64, hbit⟩ := (hv id).mpr hid
      exact ⟨⟨id - 1, by omega⟩, ⟨hbit, hw⟩, Nat.sub_add_cancel h0⟩
  have hinj : Function.Injective fun i : Fin 64 => i.val + 1 := fun i j h => Fin.ext (Nat.succ.inj h)
  rw [← Finset.card_image_of_injective _ hinj, himage,
    List.toFinset_card_of_nodup (hids.nodup.filter _), List.countP_eq_length_filter]

/-- A majority of the mask is one of the list. -/
theorem majorityMask_eq_majority {ids : List Nat} {acked : Nat → Bool} {mask : Word}
    (hids : VoterList ids) (hacked : ∀ id, 0 < id → id ≤ 64 → mask.getLsbD (id - 1) = acked id) :
    majorityMask (maskOf ids) mask = majority ids acked := by
  have hmember := (voterMask_of_nodup hids).2
  have hall : (BitSet.ones (maskOf ids)).card = ids.length := by
    have hcard := card_ones_and (w := BitVec.allOnes 64) hids hmember
    rw [BitVec.and_allOnes] at hcard
    rw [hcard, List.countP_eq_length]
    intro id hid
    obtain ⟨h0, h64⟩ := hids.range id hid
    rw [BitVec.getLsbD_allOnes]
    exact decide_eq_true (by omega)
  have hsome : (BitSet.ones (maskOf ids &&& mask)).card = ids.countP acked := by
    rw [card_ones_and hids hmember]
    refine List.countP_congr fun id hid => ?_
    obtain ⟨h0, h64⟩ := hids.range id hid
    rw [hacked id h0 h64]
  have hzero : maskOf ids = 0 ↔ ids = [] := by
    constructor
    · intro h0
      refine List.eq_nil_iff_forall_not_mem.mpr fun id hid => ?_
      exact member_ne_zero ((hmember id).mpr hid) h0
    · rintro rfl
      rfl
  unfold majorityMask
  rw [majority_eq, bitsSet_eq_card, bitsSet_eq_card, hall, hsome]
  simp only [ne_eq, hzero]

/-- Two majorities of a mask share one of its bits. -/
theorem majorityMask_meet {v a b : Word} (ha : majorityMask v a = true) (hb : majorityMask v b = true) :
    v &&& a &&& b ≠ 0 := by
  obtain ⟨id, ⟨_, _, hv⟩, ⟨_, _, ha⟩, _, _, hb⟩ := majorityMask_inter ha hb
  intro hzero
  have hbit : (v &&& a &&& b).getLsbD (id - 1) = true := by
    rw [BitVec.getLsbD_and, BitVec.getLsbD_and, hv, ha, hb]
    rfl
  rw [hzero] at hbit
  simp at hbit

/-- Deciding in lists is deciding in masks, for all lists of different node IDs and all
acknowledgements; the loop of `bitsSet` ends with the number of bits; and two majorities of
one mask, so also two quorums of a joint configuration, meet among its voters. -/
theorem canCommit_eq_masks :
    (∀ (m : Membership) (acked : Nat → Bool) (mask : Word), VoterList m.old → VoterList m.new →
      (∀ id, 0 < id → id ≤ 64 → mask.getLsbD (id - 1) = acked id) →
      voterMask m.old = .ok (if m.old = [] then none else some (maskOf m.old)) ∧
      voterMask m.new = .ok (if m.new = [] then none else some (maskOf m.new)) ∧
      m.canCommit acked = (majorityMask (maskOf m.old) mask &&
        (maskOf m.new = 0 || majorityMask (maskOf m.new) mask))) ∧
    (∀ mask : Word, ClearsBits mask (bitsSet mask) ∧
      bitsSet mask = (Finset.univ.filter fun i : Fin 64 => mask.getLsbD i = true).card) ∧
    (∀ v a b : Word, majorityMask v a = true → majorityMask v b = true → v &&& a &&& b ≠ 0) ∧
    ∀ (old new a b : Word), Node.jointMajority (old, new) a = true →
      Node.jointMajority (old, new) b = true →
      old &&& a &&& b ≠ 0 ∧ (new ≠ 0 → new &&& a &&& b ≠ 0) := by
  refine ⟨fun m acked mask hold hnew hacked => ⟨(voterMask_of_nodup hold).1,
    (voterMask_of_nodup hnew).1, ?_⟩, fun mask => ⟨clearsBits_bitsSet mask, bitsSet_eq_card mask⟩,
    fun v a b => majorityMask_meet, fun old new a b ha hb => ?_⟩
  · rw [majorityMask_eq_majority hold hacked, majorityMask_eq_majority hnew hacked]
    have hjoint : m.joint = decide (maskOf m.new ≠ 0) := by
      unfold Membership.joint
      congr 1
      rw [ne_eq, ne_eq, List.length_eq_zero_iff]
      refine propext (not_congr ⟨fun hnil => by rw [hnil]; rfl, fun hzero => ?_⟩)
      refine List.eq_nil_iff_forall_not_mem.mpr fun id hid => ?_
      exact member_ne_zero (((voterMask_of_nodup hnew).2 id).mpr hid) hzero
    unfold Membership.canCommit
    rw [hjoint]
    cases majority m.old acked with
    | false => rfl
    | true => simp
  · simp only [Node.jointMajority, Bool.and_eq_true, Bool.or_eq_true, decide_eq_true_eq] at ha hb
    refine ⟨majorityMask_meet ha.1 hb.1, fun hne => ?_⟩
    exact majorityMask_meet (ha.2.resolve_left hne) (hb.2.resolve_left hne)

/-- The voters 1, 2 and 3 change to 2, 3 and 4, and nodes 1, 2 and 4 have acknowledged. -/
theorem canCommit_eq_masks_crossing :
    (⟨[1, 2, 3], [2, 3, 4]⟩ : Membership).canCommit (fun id => id = 1 || id = 2 || id = 4) =
      (majorityMask 7 11 && ((14 : Word) = 0 || majorityMask 14 11)) ∧
    majorityMask 7 11 = true ∧ (7 : Word) &&& 11 &&& 11 ≠ 0 := by
  obtain ⟨hcommit, _, hmeet, _⟩ := canCommit_eq_masks
  have hacked : ∀ id < 65, 0 < id →
      (11 : Word).getLsbD (id - 1) = (decide (id = 1) || decide (id = 2) || decide (id = 4)) := by
    decide
  have hmajority : majorityMask 7 11 = true := by decide
  refine ⟨?_, hmajority, hmeet 7 11 11 hmajority hmajority⟩
  exact (hcommit ⟨[1, 2, 3], [2, 3, 4]⟩ _ 11 ⟨by decide, by decide⟩ ⟨by decide, by decide⟩
    fun id h0 h64 => hacked id (Nat.lt_succ_of_le h64) h0).2.2

end Promtact.Raft
