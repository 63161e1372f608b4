import Promtact.Raft.Voters

/-!
# A compacted log as a view of the whole log

The library speaks about whole logs, a node keeps the part from its base on. A
node's list *views* the whole log `x` when it is one entry that carries the term
at the base, followed by `x` without its first `base` entries. Under a view every
read of the node is a read of `x`, and no read inside the log panics.
-/

namespace Promtact.Raft

open QuorumLog
open Node (indexes)

variable {voters : Word} {σ : Type}

/-- `data` is the log `x` from index `base` on. -/
def View (voters : Word) (x : List Entry) (base : Nat) (data : List Entry) : Prop :=
  base ≤ x.length ∧ ∃ e : Entry, e.term = (protocol voters).termAt x base ∧ data = e :: x.drop base

namespace View

variable {x : List Entry} {base : Nat} {data : List Entry}

theorem length (hv : View voters x base data) : base + data.length = x.length + 1 := by
  obtain ⟨hle, e, _, rfl⟩ := hv
  simp
  omega

theorem getElem? (hv : View voters x base data) {i : Nat} (hi : base < i) :
    data[i - base]? = x[i - 1]? := by
  obtain ⟨hle, e, _, rfl⟩ := hv
  rw [show i - base = (i - base - 1) + 1 by omega, List.getElem?_cons_succ, List.getElem?_drop]
  congr 1
  omega

theorem head (hv : View voters x base data) :
    ∃ e, data[0]? = some e ∧ e.term = (protocol voters).termAt x base := by
  obtain ⟨hle, e, he, rfl⟩ := hv
  exact ⟨e, rfl, he⟩

theorem getElem?_term (hv : View voters x base data) {i : Nat} (hb : base ≤ i) (hi : i ≤ x.length) :
    (data[i - base]?).map (·.term) = some ((protocol voters).termAt x i) := by
  rcases Nat.eq_or_lt_of_le hb with rfl | hlt
  · obtain ⟨e, he, hterm⟩ := hv.head
    rw [Nat.sub_self, he]
    simp [hterm]
  · rw [hv.getElem? hlt]
    obtain ⟨e, _, hget, hterm⟩ := Protocol.termAt_mem (P := protocol voters) (by omega) hi
    rw [hget, hterm]
    rfl

/-- An empty log. -/
theorem empty : View voters [] 0 [{}] := ⟨Nat.le_refl _, {}, rfl, rfl⟩

/-- A fresh base with nothing behind it. -/
theorem bare (x : List Entry) {e : Entry} (he : e.term = (protocol voters).lastTerm x) :
    View voters x x.length [e] := ⟨Nat.le_refl _, e, he, by simp⟩

theorem concat (hv : View voters x base data) (e : Entry) :
    View voters (x ++ [e]) base (data ++ [e]) := by
  obtain ⟨hle, f, hf, rfl⟩ := hv
  refine ⟨by simp; omega, f, ?_, ?_⟩
  · rw [hf, Protocol.termAt_of_pre (List.prefix_append x [e]) hle]
  · simp [List.drop_append_of_le_length hle]

/-- Cutting the end off. -/
theorem take (hv : View voters x base data) {i : Nat} (hb : base ≤ i) :
    View voters (x.take i) base (data.take (i - base + 1)) := by
  obtain ⟨hle, f, hf, rfl⟩ := hv
  refine ⟨by simp; omega, f, ?_, ?_⟩
  · rw [hf, Protocol.termAt_take hb]
  · rw [List.take_succ_cons, List.drop_take]

/-- Cutting the front off. -/
theorem drop (hv : View voters x base data) {i : Nat} (hb : base ≤ i) (hi : i ≤ x.length) :
    View voters x i (data.drop (i - base)) := by
  have hlen := hv.length
  have hlt : i - base < data.length := by omega
  refine ⟨hi, data[i - base], ?_, ?_⟩
  · have := hv.getElem?_term hb hi
    rw [List.getElem?_eq_getElem hlt] at this
    simpa using this
  · rw [List.drop_eq_getElem_cons hlt]
    obtain ⟨hle, f, hf, rfl⟩ := hv
    simp only [List.drop_succ_cons, List.drop_drop]
    congr 2
    omega

end View

/-! ## Reading a node -/

section Reading

variable {n : Node σ} {x : List Entry}

/-- An index from the base to the end of the log has an entry. -/
theorem entryAt_ok {index : Nat} (hlo : n.baseIndex ≤ index) (hhi : index ≤ n.lastIndex)
    (hlog : n.log ≠ []) : ∃ entry, n.entryAt index = .ok entry := by
  have hpos := List.length_pos_iff.mpr hlog
  have hin : index - n.baseIndex < n.log.length := by
    unfold Node.lastIndex at hhi
    omega
  refine ⟨n.log[index - n.baseIndex], ?_⟩
  have hentry : n.entryAt? index = some n.log[index - n.baseIndex] := by
    unfold Node.entryAt? Node.offset
    rw [if_neg (by omega)]
    exact List.getElem?_eq_getElem hin
  unfold Node.entryAt
  rw [hentry]
  rfl

theorem View.lastIndex (hv : View voters x n.baseIndex n.log) : n.lastIndex = x.length := by
  have := hv.length
  unfold Node.lastIndex
  omega

theorem View.entryAt? (hv : View voters x n.baseIndex n.log) {i : Nat} (hb : n.baseIndex < i)
    (hi : i ≤ x.length) : n.entryAt? i = x[i - 1]? := by
  unfold Node.entryAt? Node.offset
  rw [hv.lastIndex, if_neg (by omega)]
  exact hv.getElem? hb

theorem View.entryAt (hv : View voters x n.baseIndex n.log) {i : Nat} {e : Entry}
    (hb : n.baseIndex < i) (he : x[i - 1]? = some e) : n.entryAt i = .ok e := by
  have hlt := (List.getElem?_eq_some_iff.mp he).1
  unfold Node.entryAt
  rw [hv.entryAt? hb (by omega), he]
  rfl

theorem View.termAt (hv : View voters x n.baseIndex n.log) {i : Nat} (hb : n.baseIndex ≤ i)
    (hi : i ≤ x.length) : n.termAt i = some ((protocol voters).termAt x i) := by
  unfold Node.termAt Node.entryAt? Node.offset
  rw [hv.lastIndex, if_neg (by omega)]
  exact hv.getElem?_term hb hi

theorem View.termAt_eq_some (hv : View voters x n.baseIndex n.log) {i t : Nat} :
    n.termAt i = some t ↔
      n.baseIndex ≤ i ∧ i ≤ x.length ∧ (protocol voters).termAt x i = t := by
  constructor
  · intro h
    have hin : n.baseIndex ≤ i ∧ i ≤ x.length := by
      unfold Node.termAt Node.entryAt? Node.offset at h
      rw [hv.lastIndex] at h
      by_cases hout : i < n.baseIndex ∨ i > x.length
      · simp [if_pos hout] at h
      · omega
    refine ⟨hin.1, hin.2, ?_⟩
    rw [hv.termAt hin.1 hin.2] at h
    simpa using h
  · rintro ⟨hb, hi, rfl⟩
    exact hv.termAt hb hi

theorem View.termAtMust (hv : View voters x n.baseIndex n.log) {i : Nat} (hb : n.baseIndex ≤ i)
    (hi : i ≤ x.length) : n.termAtMust i = .ok ((protocol voters).termAt x i) := by
  unfold Node.termAtMust
  rw [hv.termAt hb hi]
  rfl

theorem View.lastTerm (hv : View voters x n.baseIndex n.log) :
    n.termAtMust n.lastIndex = .ok ((protocol voters).lastTerm x) := by
  rw [hv.lastIndex]
  exact hv.termAtMust hv.1 (Nat.le_refl _)

/-- Folding over consecutive indexes is folding over a part of the log. -/
theorem foldlM_indexes {β : Type} {f : β → Nat → Except Panic β} {g : β → Entry → β} {k i : Nat}
    (hf : ∀ b j e, k < j → x[j - 1]? = some e → f b j = .ok (g b e)) (hi : i ≤ x.length) (b : β) :
    (indexes (k + 1) i).foldlM f b = .ok (((x.take i).drop k).foldl g b) := by
  unfold indexes
  obtain ⟨m, hm⟩ : ∃ m, m = i + 1 - (k + 1) := ⟨_, rfl⟩
  rw [← hm]
  induction m generalizing k b with
  | zero =>
    rw [List.drop_eq_nil_of_le (by simp; omega)]
    rfl
  | succ m ih =>
    have hlt : k < (x.take i).length := by simp; omega
    have hget : x[k]? = some (x.take i)[k] := by
      rw [List.getElem_take, List.getElem?_eq_getElem]
    rw [List.range'_succ, List.foldlM_cons, hf b (k + 1) _ (by omega) hget,
      List.drop_eq_getElem_cons hlt, List.foldl_cons]
    exact ih (fun b j e hj => hf b j e (by omega)) _ (by omega)

theorem View.overrideVoters (hv : View voters x n.baseIndex n.log) {k i : Nat}
    (hk : n.baseIndex ≤ k) (hi : i ≤ x.length) (c : Word × Word) :
    (indexes (k + 1) i).foldlM n.overrideVoters c =
      .ok (((x.take i).drop k).foldl overrideEntry c) := by
  refine foldlM_indexes ?_ hi c
  intro b j e hj he
  unfold Node.overrideVoters
  rw [hv.entryAt (by omega) he]
  rfl

/-- The voters the code counts are the effective voters of the whole log. -/
theorem View.effectiveVoters (hv : View voters x n.baseIndex n.log) (hk : n.baseIndex ≤ n.commit)
    (hconf : configAfter voters (x.take n.commit) = (n.votersOld, n.votersNew)) :
    n.effectiveVoters = .ok (effective voters x n.commit) := by
  unfold Node.effectiveVoters
  rw [show max (n.commit + 1) (n.baseIndex + 1) = n.commit + 1 by omega, hv.lastIndex,
    hv.overrideVoters hk (Nat.le_refl _), List.take_length, ← hconf]
  rfl

/-- Nothing that a node reads of its log is out of range. -/
theorem View.entryAt_ok (hv : View voters x n.baseIndex n.log) {i : Nat} (hb : n.baseIndex < i)
    (hi : i ≤ x.length) : ∃ e, n.entryAt i = .ok e :=
  ⟨_, hv.entryAt hb (List.getElem?_eq_getElem (by omega))⟩

theorem View.effectiveVoters_ok (hv : View voters x n.baseIndex n.log) :
    ∃ c, n.effectiveVoters = .ok c := by
  unfold Node.effectiveVoters
  rw [Nat.add_max_add_right, hv.lastIndex, hv.overrideVoters (by omega) (Nat.le_refl _)]
  exact ⟨_, rfl⟩

theorem View.isVoter_ok (hv : View voters x n.baseIndex n.log) {id : Nat} (h0 : 0 < id)
    (h64 : id ≤ 64) : ∃ b, n.isVoter id = .ok b := by
  obtain ⟨c, hc⟩ := hv.effectiveVoters_ok
  exact ⟨_, by simp only [Node.isVoter, hc, nodeBit_of_range h0 h64]; rfl⟩

theorem View.quorumMask (hv : View voters x n.baseIndex n.log) (hk : n.baseIndex ≤ n.commit)
    (hconf : configAfter voters (x.take n.commit) = (n.votersOld, n.votersNew)) (w : Word) :
    n.quorumMask w = .ok (Node.jointMajority (effective voters x n.commit) w) := by
  unfold Node.quorumMask
  rw [hv.effectiveVoters hk hconf]
  rfl

theorem View.canCommitIndex (hv : View voters x n.baseIndex n.log) (hk : n.baseIndex ≤ n.commit)
    (hconf : configAfter voters (x.take n.commit) = (n.votersOld, n.votersNew)) {i : Nat}
    (hki : n.commit ≤ i) (hi : i ≤ x.length) (w : Word) :
    n.canCommitIndex i w = .ok (Node.jointMajority (effective voters (x.take i) n.commit) w) := by
  unfold Node.canCommitIndex
  rw [hv.overrideVoters hk hi, ← hconf]
  unfold effective
  rw [take_take_of_le hki]
  rfl

end Reading

end Promtact.Raft
