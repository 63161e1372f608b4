import Mathlib

/-!
# Sets of bits

A `BitVec n` read as the set of its one-bits. The two facts a program on masks
needs are that clearing the lowest one-bit takes one element away
(`card_ones_clear`), and that two majorities of the same set meet
(`majorities_meet`).
-/

namespace BitSet

variable {n : Nat}

/-- The positions of the one-bits. -/
def ones (w : BitVec n) : Finset (Fin n) := Finset.univ.filter fun i => w.getLsbD i = true

@[simp] theorem mem_ones {w : BitVec n} {i : Fin n} : i ∈ ones w ↔ w.getLsbD i = true := by
  simp [ones]

@[simp] theorem ones_zero : ones (0 : BitVec n) = ∅ := by
  ext i
  simp

theorem exists_of_ne_zero {w : BitVec n} (hw : w ≠ 0) : ∃ i, i < n ∧ w.getLsbD i = true := by
  by_contra hno
  push Not at hno
  apply hw
  apply BitVec.eq_of_getLsbD_eq
  intro i hi
  simpa using hno i hi

/-- Subtracting one borrows up to the lowest one-bit. -/
theorem testBit_pred (k m i : Nat) :
    (2 ^ k * (2 * m + 1) - 1).testBit i =
      if i < k then true else if i = k then false else (2 ^ k * (2 * m + 1)).testBit i := by
  have hpos : 0 < 2 ^ k := Nat.two_pow_pos k
  have hsplit : 2 ^ k * (2 * m + 1) - 1 = 2 ^ k * (2 * m) + (2 ^ k - 1) := by
    rw [Nat.mul_add, Nat.mul_one]; omega
  rw [hsplit, Nat.testBit_two_pow_mul_add _ (by omega)]
  split
  · simp [*]
  · rename_i hik
    split
    · rename_i heq
      subst heq
      simp
    · rename_i hne
      rw [Nat.testBit_two_pow_mul]
      have hle : k ≤ i := by omega
      obtain ⟨j, hj⟩ : ∃ j, i - k = j + 1 := ⟨i - k - 1, by omega⟩
      simp only [hj, Nat.testBit_succ, hle, decide_true, Bool.true_and]
      congr 1
      omega

theorem getLsbD_clear {w : BitVec n} {k : Nat} (hk : w.getLsbD k = true)
    (hlow : ∀ j, j < k → w.getLsbD j = false) (i : Nat) :
    (w &&& (w - 1)).getLsbD i = (w.getLsbD i && decide (i ≠ k)) := by
  have hkn : k < n := by
    by_contra hge
    rw [BitVec.getLsbD_of_ge _ _ (by omega)] at hk
    cases hk
  -- the number is an odd multiple of `2 ^ k`
  have hdvd : w.toNat % 2 ^ k = 0 := by
    apply Nat.eq_of_testBit_eq
    intro j
    rw [Nat.testBit_mod_two_pow, Nat.zero_testBit]
    by_cases hj : j < k
    · have hbit : w.toNat.testBit j = false := hlow j hj
      simp [hbit]
    · simp [hj]
  obtain ⟨q, hq⟩ := Nat.dvd_of_mod_eq_zero hdvd
  have hodd : q % 2 = 1 := by
    have : w.toNat.testBit k = true := hk
    rw [hq, Nat.testBit_two_pow_mul] at this
    simpa [Nat.testBit_zero] using this
  have hform : w.toNat = 2 ^ k * (2 * (q / 2) + 1) := by rw [hq]; congr 1; omega
  have hpos : 0 < w.toNat := by
    rw [hform]
    exact Nat.mul_pos (Nat.two_pow_pos k) (by omega)
  have hsub : (w - 1).toNat = w.toNat - 1 := by
    have hlt := w.isLt
    have h1 : (1 : BitVec n).toNat = 1 := by
      have : 1 < 2 ^ n := Nat.one_lt_two_pow (by omega)
      simp [BitVec.toNat_ofNat, Nat.mod_eq_of_lt this]
    rw [BitVec.toNat_sub, h1]
    have : 2 ^ n - 1 + w.toNat = (w.toNat - 1) + 2 ^ n := by
      have := Nat.two_pow_pos n
      omega
    rw [this, Nat.add_mod_right, Nat.mod_eq_of_lt (by omega)]
  have hpred : (w - 1).getLsbD i =
      if i < k then true else if i = k then false else w.getLsbD i := by
    rw [BitVec.getLsbD, hsub, hform, testBit_pred, ← hform]
    rfl
  rw [BitVec.getLsbD_and, hpred]
  rcases Nat.lt_trichotomy i k with hik | rfl | hik
  · simp [hlow i hik]
  · simp
  · have hne : i ≠ k := by omega
    simp [hne, show ¬ i < k by omega]

/-- Clearing the lowest one-bit takes one element away. -/
theorem card_ones_clear {w : BitVec n} (hw : w ≠ 0) :
    (ones (w &&& (w - 1))).card + 1 = (ones w).card := by
  have hex : ∃ i, w.getLsbD i = true := by
    obtain ⟨i, _, hi⟩ := exists_of_ne_zero hw
    exact ⟨i, hi⟩
  have hk := Nat.find_spec hex
  have hlow : ∀ j, j < Nat.find hex → w.getLsbD j = false := by
    intro j hj
    have := Nat.find_min hex hj
    simpa using this
  have hkn : Nat.find hex < n := by
    by_contra hge
    rw [BitVec.getLsbD_of_ge _ _ (by omega)] at hk
    cases hk
  have hmem : (⟨Nat.find hex, hkn⟩ : Fin n) ∈ ones w := by simpa using hk
  have herase : ones (w &&& (w - 1)) = (ones w).erase ⟨Nat.find hex, hkn⟩ := by
    ext i
    rw [mem_ones, getLsbD_clear hk hlow, Finset.mem_erase, mem_ones]
    simp only [Bool.and_eq_true, decide_eq_true_eq, ne_eq, Fin.ext_iff]
    tauto
  rw [herase]
  exact Finset.card_erase_add_one hmem

/-- Two majorities of the same set meet in it. -/
theorem majorities_meet {v w w' : BitVec n} (hw : (ones v).card / 2 + 1 ≤ (ones (v &&& w)).card)
    (hw' : (ones v).card / 2 + 1 ≤ (ones (v &&& w')).card) :
    ∃ i : Fin n, v.getLsbD i = true ∧ w.getLsbD i = true ∧ w'.getLsbD i = true := by
  by_contra hno
  push Not at hno
  have hdisj : Disjoint (ones (v &&& w)) (ones (v &&& w')) := by
    rw [Finset.disjoint_left]
    intro i hi hi'
    simp only [mem_ones, BitVec.getLsbD_and, Bool.and_eq_true] at hi hi'
    exact hno i hi.1 hi.2 hi'.2
  have hsub : ones (v &&& w) ∪ ones (v &&& w') ⊆ ones v := by
    intro i hi
    simp only [Finset.mem_union, mem_ones, BitVec.getLsbD_and, Bool.and_eq_true] at hi ⊢
    rcases hi with hi | hi
    · exact hi.1
    · exact hi.1
  have hcard := Finset.card_le_card hsub
  rw [Finset.card_union_of_disjoint hdisj] at hcard
  omega

end BitSet
