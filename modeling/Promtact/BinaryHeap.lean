import Mathlib

/-!
# Binary heaps

A min-heap in an array: the children of position `i` are `2 * i + 1` and `2 * i + 2`.
The order comes from a key, and the code compares with `lt`, which agrees with it.
`push`, `pop` and `rebuild` keep what the array holds, up to its order, and end with a
heap; `pop` takes a least element, and `drain` yields the elements in order.

The loops take a bound on their rounds. The size of the array is always enough
(`siftsDown_siftDown`, `siftUp_heap`).
-/

namespace BinaryHeap

variable {α κ : Type}

/-! ## The operations -/

def parent (i : Nat) : Nat := (i - 1) / 2

/-- Both positions exist, and the first holds the smaller element. -/
def before (lt : α → α → Bool) (a : Array α) (i j : Nat) : Bool :=
  match a[i]?, a[j]? with
  | some x, some y => lt x y
  | _, _ => false

/-- The position with the smallest element among `i` and its children. -/
def smallest (lt : α → α → Bool) (a : Array α) (i : Nat) : Nat :=
  let least := if before lt a (2 * i + 1) i then 2 * i + 1 else i
  if before lt a (2 * i + 2) least then 2 * i + 2 else least

def siftUp (lt : α → α → Bool) : Nat → Array α → Nat → Array α
  | 0, a, _ => a
  | rounds + 1, a, i =>
    if i > 0 && before lt a i (parent i) then
      siftUp lt rounds (a.swapIfInBounds i (parent i)) (parent i)
    else a

def siftDown (lt : α → α → Bool) : Nat → Array α → Nat → Array α
  | 0, a, _ => a
  | rounds + 1, a, i =>
    if smallest lt a i = i then a
    else siftDown lt rounds (a.swapIfInBounds i (smallest lt a i)) (smallest lt a i)

def push (lt : α → α → Bool) (a : Array α) (x : α) : Array α :=
  siftUp lt (a.size + 1) (a.push x) a.size

/-- The root, and the heap without it. -/
def pop (lt : α → α → Bool) (a : Array α) : Option (α × Array α) :=
  match a[0]?, a.back? with
  | some top, some last =>
    let rest := (a.setIfInBounds 0 last).pop
    some (top, siftDown lt rest.size rest 0)
  | _, _ => none

/-- Sifts down from the last parent to the root. -/
def rebuild (lt : α → α → Bool) (a : Array α) : Array α :=
  (List.range (a.size / 2)).foldr (fun i b => siftDown lt b.size b i) a

/-! ## What the array holds -/

variable {lt : α → α → Bool} {a : Array α} {i j k rounds : Nat} {x : α}

theorem swapIfInBounds_perm : (a.swapIfInBounds i j).toList.Perm a.toList := by
  rw [Array.swapIfInBounds_def]
  split
  · split
    · exact Array.perm_iff_toList_perm.mp (Array.swap_perm ..)
    · exact List.Perm.refl _
  · exact List.Perm.refl _

theorem siftUp_perm : (siftUp lt rounds a i).toList.Perm a.toList := by
  induction rounds generalizing a i with
  | zero => exact List.Perm.refl _
  | succ rounds ih =>
    rw [siftUp]
    split
    · exact ih.trans swapIfInBounds_perm
    · exact List.Perm.refl _

theorem siftDown_perm : (siftDown lt rounds a i).toList.Perm a.toList := by
  induction rounds generalizing a i with
  | zero => exact List.Perm.refl _
  | succ rounds ih =>
    rw [siftDown]
    split
    · exact List.Perm.refl _
    · exact ih.trans swapIfInBounds_perm

@[simp] theorem size_siftDown : (siftDown lt rounds a i).size = a.size :=
  siftDown_perm.length_eq

/-- A run of the loop that sifts down, from its position to the array that it ends with. -/
inductive SiftsDown (lt : α → α → Bool) : Array α → Nat → Array α → Prop
  | done {a : Array α} {i : Nat} (hend : smallest lt a i = i) : SiftsDown lt a i a
  | swap {a b : Array α} {i : Nat} (hne : smallest lt a i ≠ i)
    (hrest : SiftsDown lt (a.swapIfInBounds i (smallest lt a i)) (smallest lt a i) b) :
    SiftsDown lt a i b

theorem lt_size_of_before (h : before lt a i j = true) : i < a.size := by
  unfold before at h
  split at h
  · rename_i x y hx hy
    exact (Array.getElem?_eq_some_iff.mp hx).1
  · cases h

/-- The loop only moves towards the end of the array. -/
theorem smallest_gt (hne : smallest lt a i ≠ i) : i < smallest lt a i ∧ smallest lt a i < a.size := by
  simp only [smallest] at hne ⊢
  by_cases hr : before lt a (2 * i + 2) (if before lt a (2 * i + 1) i then 2 * i + 1 else i) = true
  · have hsize := lt_size_of_before hr
    rw [if_pos hr]
    omega
  · rw [if_neg hr] at hne ⊢
    by_cases hl : before lt a (2 * i + 1) i = true
    · have hsize := lt_size_of_before hl
      rw [if_pos hl]
      omega
    · rw [if_neg hl] at hne
      exact absurd rfl hne

/-- The loop ends within the bound. -/
theorem siftsDown_siftDown (hrounds : a.size ≤ i + rounds) :
    SiftsDown lt a i (siftDown lt rounds a i) := by
  induction rounds generalizing a i with
  | zero =>
    refine .done ?_
    by_contra hne
    have hgt := smallest_gt hne
    omega
  | succ rounds ih =>
    rw [siftDown]
    split
    · rename_i hend
      exact .done hend
    · rename_i hne
      have hgt := smallest_gt hne
      refine .swap hne (ih ?_)
      rw [Array.size_swapIfInBounds]
      omega

theorem push_perm : (push lt a x).toList.Perm (x :: a.toList) := by
  refine siftUp_perm.trans ?_
  rw [Array.toList_push]
  exact List.perm_append_singleton x a.toList

theorem rebuild_perm : (rebuild lt a).toList.Perm a.toList := by
  unfold rebuild
  generalize List.range (a.size / 2) = positions
  induction positions with
  | nil => exact List.Perm.refl _
  | cons i positions ih =>
    rw [List.foldr_cons]
    exact siftDown_perm.trans ih

/-- The last element in the place of the root. -/
theorem setIfInBounds_pop_perm {top last : α} (htop : a[0]? = some top) (hlast : a.back? = some last) :
    a.toList.Perm (top :: (a.setIfInBounds 0 last).pop.toList) := by
  obtain ⟨l⟩ := a
  cases l with
  | nil => simp at htop
  | cons y l =>
    obtain rfl : y = top := by simpa using htop
    rcases List.eq_nil_or_concat l with rfl | ⟨l, z, rfl⟩
    · simp
    · rw [List.concat_eq_append] at hlast ⊢
      have hend : (y :: (l ++ [z])).getLast? = some z := by
        rw [← List.cons_append, List.getLast?_append]
        rfl
      obtain rfl : z = last := by
        rw [List.back?_toArray, hend] at hlast
        exact Option.some.inj hlast
      have hfront : (z :: (l ++ [z])).dropLast = z :: l := by
        rw [← List.cons_append, List.dropLast_concat]
      simp only [List.setIfInBounds_toArray, List.set_cons_zero, List.pop_toArray, hfront]
      exact (List.perm_append_singleton z l).cons y

theorem pop_perm {top : α} {rest : Array α} (h : pop lt a = some (top, rest)) :
    a.toList.Perm (top :: rest.toList) := by
  unfold pop at h
  split at h
  · rename_i top' last htop hlast
    simp only [Option.some.injEq, Prod.mk.injEq] at h
    obtain ⟨rfl, rfl⟩ := h
    exact (setIfInBounds_pop_perm htop hlast).trans (siftDown_perm.symm.cons _)
  · cases h

theorem pop_isSome (lt : α → α → Bool) (hne : a[0]? = some x) : ∃ rest, pop lt a = some (x, rest) := by
  have hsize : 0 < a.size := by
    by_contra hno
    rw [Array.getElem?_eq_none (by omega)] at hne
    cases hne
  have hlast : a.back? = some a[a.size - 1] := by
    rw [Array.back?_eq_getElem?, Array.getElem?_eq_getElem (by omega)]
  unfold pop
  rw [hne, hlast]
  exact ⟨_, rfl⟩

/-- Pops until nothing is left. -/
def drain (lt : α → α → Bool) (a : Array α) : List α :=
  match _hpop : pop lt a with
  | none => []
  | some (top, rest) => top :: drain lt rest
termination_by a.size
decreasing_by
  have hlen := (pop_perm _hpop).length_eq
  rw [List.length_cons, Array.length_toList, Array.length_toList] at hlen
  omega

theorem eq_empty_of_pop (h : pop lt a = none) : a = #[] := by
  by_contra hne
  have hsize : 0 < a.size := Array.size_pos_iff.mpr hne
  obtain ⟨rest, hsome⟩ := pop_isSome lt (Array.getElem?_eq_getElem hsize)
  rw [h] at hsome
  cases hsome

theorem drain_perm (lt : α → α → Bool) (a : Array α) : (drain lt a).Perm a.toList := by
  induction a using drain.induct lt with
  | case1 a hpop =>
    rw [drain, hpop, eq_empty_of_pop hpop]
  | case2 a top rest hpop ih =>
    rw [drain, hpop]
    exact (ih.cons top).trans (pop_perm hpop).symm

/-! ## The order -/

variable [LinearOrder κ] {key : α → κ}

/-- The element at the first position is not the larger one. -/
def Le (key : α → κ) (a : Array α) (i j : Nat) : Prop :=
  ∀ x y, a[i]? = some x → a[j]? = some y → key x ≤ key y

/-- No element is smaller than its parent, as far as the parent is not before `first`. -/
def HeapFrom (key : α → κ) (first : Nat) (a : Array α) : Prop :=
  ∀ j, 0 < j → first ≤ parent j → Le key a (parent j) j

abbrev IsHeap (key : α → κ) (a : Array α) : Prop := HeapFrom key 0 a

/-- The comparison of the code agrees with the key. -/
def Compares (lt : α → α → Bool) (key : α → κ) : Prop := ∀ x y, lt x y = true ↔ key x < key y

theorem le_of_not_before (hlt : Compares lt key) (h : before lt a i j = false) : Le key a j i := by
  intro y x hy hx
  unfold before at h
  rw [hx, hy] at h
  exact not_lt.mp fun hless => Bool.false_ne_true (h.symm.trans ((hlt x y).mpr hless))

theorem le_of_before (hlt : Compares lt key) (h : before lt a i j = true) :
    i < a.size ∧ j < a.size ∧ Le key a i j := by
  unfold before at h
  split at h
  · rename_i x y hx hy
    refine ⟨(Array.getElem?_eq_some_iff.mp hx).1, (Array.getElem?_eq_some_iff.mp hy).1, ?_⟩
    intro x' y' hx' hy'
    rw [hx] at hx'
    rw [hy] at hy'
    cases hx'
    cases hy'
    exact le_of_lt ((hlt x y).mp h)
  · cases h

theorem Le.trans (hij : Le key a i j) (hj : j < a.size) (hjk : Le key a j k) : Le key a i k := by
  intro x z hx hz
  have hy : a[j]? = some a[j] := Array.getElem?_eq_getElem hj
  exact le_trans (hij x _ hx hy) (hjk _ z hy hz)

theorem getElem?_swapIfInBounds (hi : i < a.size) (hj : j < a.size) (k : Nat) :
    (a.swapIfInBounds i j)[k]? = if k = i then a[j]? else if k = j then a[i]? else a[k]? := by
  rw [Array.swapIfInBounds_def, dif_pos hi, dif_pos hj, Array.getElem?_swap]
  by_cases hkj : k = j
  · by_cases hki : k = i
    · subst hkj hki
      simp [hi]
    · simp [hkj, hi, show j ≠ i from fun h => hki (hkj.trans h)]
  · by_cases hki : k = i
    · simp [hki, hj, show j ≠ i from fun h => hkj (hki.trans h.symm)]
    · simp [hki, hkj, Ne.symm hki, Ne.symm hkj]

/-- The root is a least element. -/
theorem IsHeap.root_le (h : IsHeap key a) (j : Nat) : Le key a 0 j := by
  induction j using Nat.strongRecOn with
  | ind j ih =>
    by_cases hj : j = 0
    · subst hj
      intro x y hx hy
      rw [hx] at hy
      cases hy
      exact le_refl _
    · intro x y hx hy
      have hlt : parent j < j := by
        unfold parent
        omega
      have hsize : parent j < a.size := Nat.lt_trans hlt (Array.getElem?_eq_some_iff.mp hy).1
      exact ((ih (parent j) hlt).trans hsize (h j (by omega) (Nat.zero_le _))) x y hx hy

/-! ## Sifting up -/

/-- Only position `i` may be smaller than its parent. -/
structure UpFrom (key : α → κ) (i : Nat) (a : Array α) : Prop where
  except : ∀ j, 0 < j → j ≠ i → Le key a (parent j) j
  grand : ∀ j, 0 < j → parent j = i → 0 < i → Le key a (parent i) j

theorem UpFrom.swap (hlt : Compares lt key) (h : UpFrom key i a) (hi : 0 < i)
    (hb : before lt a i (parent i) = true) :
    UpFrom key (parent i) (a.swapIfInBounds i (parent i)) := by
  obtain ⟨hsize, hpsize, hle⟩ := le_of_before hlt hb
  have hget := getElem?_swapIfInBounds hsize hpsize
  have hp : parent i < i := by
    unfold parent
    omega
  constructor
  · intro j hj hne x y hx hy
    have hpj : parent j < j := by
      unfold parent
      omega
    rw [hget] at hx hy
    by_cases hji : j = i
    · subst hji
      rw [if_neg (by omega), if_pos rfl] at hx
      rw [if_pos rfl] at hy
      exact hle x y hx hy
    · rw [if_neg hji, if_neg hne] at hy
      by_cases hpi : parent j = i
      · rw [if_pos hpi] at hx
        exact h.grand j hj hpi hi x y hx hy
      · rw [if_neg hpi] at hx
        by_cases hpp : parent j = parent i
        · rw [if_pos hpp] at hx
          exact (hle.trans hpsize (hpp ▸ h.except j hj hji)) x y hx hy
        · rw [if_neg hpp] at hx
          exact h.except j hj hji x y hx hy
  · intro j hj hpj hpos x y hx hy
    have hpp : parent (parent i) < parent i := by
      unfold parent at hpos ⊢
      omega
    rw [hget] at hx hy
    rw [if_neg (by omega), if_neg (by omega)] at hx
    have hup : Le key a (parent (parent i)) (parent i) := h.except (parent i) hpos (by omega)
    by_cases hji : j = i
    · rw [if_pos hji] at hy
      exact hup x y hx hy
    · have hjp : j ≠ parent i := by
        intro hjp
        rw [hjp] at hpj
        omega
      rw [if_neg hji, if_neg hjp] at hy
      exact (hup.trans hpsize (hpj ▸ h.except j hj hji)) x y hx hy

theorem siftUp_heap (hlt : Compares lt key) (h : UpFrom key i a) (hrounds : i ≤ rounds) :
    IsHeap key (siftUp lt rounds a i) := by
  induction rounds generalizing a i with
  | zero =>
    intro j hj _
    exact h.except j hj (by omega)
  | succ rounds ih =>
    rw [siftUp]
    split
    · rename_i hcond
      obtain ⟨hi, hb⟩ : 0 < i ∧ before lt a i (parent i) = true := by simpa using hcond
      refine ih (h.swap hlt hi hb) ?_
      unfold parent
      omega
    · rename_i hcond
      intro j hj _
      by_cases hji : j = i
      · subst hji
        have hb : before lt a j (parent j) = false := by simpa [hj] using hcond
        exact le_of_not_before hlt hb
      · exact h.except j hj hji

theorem push_heap (hlt : Compares lt key) (h : IsHeap key a) : IsHeap key (push lt a x) := by
  refine siftUp_heap hlt ⟨fun j hj hne y z hy hz => ?_, fun j hj hp hpos y z hy hz => ?_⟩
    (Nat.le_succ _)
  · have hj' : j < a.size := by
      have := (Array.getElem?_eq_some_iff.mp hz).1
      rw [Array.size_push] at this
      omega
    have hpj : parent j < j := by
      unfold parent
      omega
    rw [Array.getElem?_push, if_neg (by omega)] at hy hz
    exact h j hj (Nat.zero_le _) y z hy hz
  · have := (Array.getElem?_eq_some_iff.mp hz).1
    rw [Array.size_push] at this
    unfold parent at hp
    omega

/-! ## Sifting down -/

/-- Only position `i` may be larger than its children. -/
structure DownFrom (key : α → κ) (first i : Nat) (a : Array α) : Prop where
  except : ∀ j, 0 < j → first ≤ parent j → parent j ≠ i → Le key a (parent j) j
  grand : ∀ j, 0 < j → parent j = i → 0 < i → first ≤ parent i → Le key a (parent i) j

/-- What the choice of a child says. -/
theorem smallest_spec (hlt : Compares lt key) :
    (smallest lt a i = i ∧ Le key a i (2 * i + 1) ∧ Le key a i (2 * i + 2)) ∨
    (parent (smallest lt a i) = i ∧ i < smallest lt a i ∧ smallest lt a i < a.size ∧
      Le key a (smallest lt a i) i ∧ Le key a (smallest lt a i) (2 * i + 1) ∧
      Le key a (smallest lt a i) (2 * i + 2)) := by
  have hrefl : ∀ k, Le key a k k := by
    intro k x y hx hy
    rw [hx] at hy
    cases hy
    exact le_refl _
  have hleft : parent (2 * i + 1) = i := by
    unfold parent
    omega
  have hright : parent (2 * i + 2) = i := by
    unfold parent
    omega
  simp only [smallest]
  cases hl : before lt a (2 * i + 1) i with
  | true =>
    obtain ⟨hlsize, hisize, hli⟩ := le_of_before hlt hl
    simp only [if_true]
    cases hr : before lt a (2 * i + 2) (2 * i + 1) with
    | true =>
      obtain ⟨hrsize, _, hrl⟩ := le_of_before hlt hr
      simp only [if_true]
      exact Or.inr ⟨hright, by omega, hrsize, hrl.trans hlsize hli, hrl, hrefl _⟩
    | false =>
      simp only [Bool.false_eq_true, if_false]
      exact Or.inr ⟨hleft, by omega, hlsize, hli, hrefl _, le_of_not_before hlt hr⟩
  | false =>
    have hil := le_of_not_before hlt hl
    simp only [Bool.false_eq_true, if_false]
    cases hr : before lt a (2 * i + 2) i with
    | true =>
      obtain ⟨hrsize, hisize, hri⟩ := le_of_before hlt hr
      simp only [if_true]
      exact Or.inr ⟨hright, by omega, hrsize, hri, hri.trans hisize hil, hrefl _⟩
    | false =>
      simp only [Bool.false_eq_true, if_false]
      exact Or.inl ⟨trivial, hil, le_of_not_before hlt hr⟩

/-- A child of a position is one of two. -/
theorem eq_child (hj : 0 < j) (hp : parent j = i) : j = 2 * i + 1 ∨ j = 2 * i + 2 := by
  unfold parent at hp
  omega

variable {first : Nat}

theorem DownFrom.swap (hlt : Compares lt key) (h : DownFrom key first i a)
    (hne : smallest lt a i ≠ i) :
    DownFrom key first (smallest lt a i) (a.swapIfInBounds i (smallest lt a i)) := by
  rcases smallest_spec (a := a) (i := i) hlt with ⟨heq, _⟩ | ⟨hparent, hgt, hsize, hself, hl, hr⟩
  · exact absurd heq hne
  generalize smallest lt a i = s at hparent hgt hsize hself hl hr hne ⊢
  have hget := getElem?_swapIfInBounds (i := i) (j := s) (Nat.lt_trans hgt hsize) hsize
  have hchild : ∀ j, 0 < j → parent j = i → Le key a s j := by
    intro j hj hp
    rcases eq_child hj hp with rfl | rfl
    · exact hl
    · exact hr
  constructor
  · intro j hj hfirst hps x y hx hy
    have hpj : parent j < j := by
      unfold parent
      omega
    rw [hget] at hx hy
    by_cases hpi : parent j = i
    · rw [if_pos hpi] at hx
      rw [if_neg (by omega)] at hy
      by_cases hjs : j = s
      · rw [if_pos hjs] at hy
        exact hself x y hx hy
      · rw [if_neg hjs] at hy
        exact hchild j hj hpi x y hx hy
    · rw [if_neg hpi, if_neg hps] at hx
      by_cases hji : j = i
      · -- the position above the swap
        rw [if_pos hji] at hy
        subst hji
        exact h.grand s (by omega) hparent hj hfirst x y hx hy
      · have hjs : j ≠ s := by
          rintro rfl
          exact hpi hparent
        rw [if_neg hji, if_neg hjs] at hy
        exact h.except j hj hfirst hpi x y hx hy
  · intro j hj hps hspos hfirst x y hx hy
    have hpj : parent j < j := by
      unfold parent
      omega
    rw [hparent] at hx hfirst
    rw [hget, if_pos rfl] at hx
    rw [hget, if_neg (by omega), if_neg (by omega)] at hy
    exact (hps ▸ h.except j hj (by omega) (by omega)) x y hx hy

theorem siftDown_heap (hlt : Compares lt key) (h : DownFrom key first i a)
    (hrounds : a.size ≤ i + rounds) : HeapFrom key first (siftDown lt rounds a i) := by
  induction rounds generalizing a i with
  | zero =>
    intro j hj hfirst
    by_cases hp : parent j = i
    · intro x y _ hy
      have hsize : j < a.size := (Array.getElem?_eq_some_iff.mp hy).1
      unfold parent at hp
      omega
    · exact h.except j hj hfirst hp
  | succ rounds ih =>
    rw [siftDown]
    split
    · rename_i heq
      rcases smallest_spec (a := a) (i := i) hlt with ⟨_, hl, hr⟩ | ⟨_, hgt, _⟩
      · intro j hj hfirst
        by_cases hp : parent j = i
        · rcases eq_child hj hp with rfl | rfl
          · rw [hp]
            exact hl
          · rw [hp]
            exact hr
        · exact h.except j hj hfirst hp
      · omega
    · rename_i hne
      refine ih (h.swap hlt hne) ?_
      rcases smallest_spec (a := a) (i := i) hlt with ⟨heq, _⟩ | ⟨_, hgt, _⟩
      · exact absurd heq hne
      · rw [Array.size_swapIfInBounds]
        omega

theorem pop_heap (hlt : Compares lt key) (h : IsHeap key a) {top : α} {rest : Array α}
    (hpop : pop lt a = some (top, rest)) :
    IsHeap key rest ∧ ∀ y ∈ a.toList, key top ≤ key y := by
  unfold pop at hpop
  split at hpop
  · rename_i top' last htop hlast
    simp only [Option.some.injEq, Prod.mk.injEq] at hpop
    obtain ⟨rfl, rfl⟩ := hpop
    refine ⟨siftDown_heap hlt ⟨fun j hj _ hp y z hy hz => ?_, fun _ _ _ hpos => absurd hpos (by simp)⟩
      (by simp), fun y hy => ?_⟩
    · -- away from the root the array is as it was
      have hpj : parent j < j := by
        unfold parent
        omega
      have hj' := (Array.getElem?_eq_some_iff.mp hz).1
      rw [Array.size_pop, Array.size_setIfInBounds] at hj'
      rw [Array.getElem?_pop, Array.size_setIfInBounds, if_pos (by omega),
        Array.getElem?_setIfInBounds_ne (by omega)] at hy hz
      exact h j hj (Nat.zero_le _) y z hy hz
    · obtain ⟨k, hk, rfl⟩ := List.getElem_of_mem hy
      exact h.root_le k _ _ htop (by simp [Array.getElem?_eq_getElem (Array.length_toList ▸ hk)])
  · cases hpop

/-- A heap is drained in the order of its keys. -/
theorem drain_sorted (hlt : Compares lt key) (h : IsHeap key a) :
    (drain lt a).Pairwise fun x y => key x ≤ key y := by
  induction a using drain.induct lt with
  | case1 a hpop =>
    rw [drain, hpop]
    exact List.Pairwise.nil
  | case2 a top rest hpop ih =>
    obtain ⟨hheap, hleast⟩ := pop_heap hlt h hpop
    rw [drain, hpop]
    refine List.pairwise_cons.mpr ⟨fun y hy => hleast y ?_, ih hheap⟩
    refine (pop_perm hpop).mem_iff.mpr (List.mem_cons_of_mem top ?_)
    exact (drain_perm lt rest).mem_iff.mp hy

theorem rebuild_heap (hlt : Compares lt key) : IsHeap key (rebuild lt a) := by
  -- from the positions that are done on, the array is a heap
  have hsteps : ∀ count first, first + count = a.size / 2 →
      HeapFrom key first ((List.range' first count).foldr (fun i b => siftDown lt b.size b i) a) ∧
      ((List.range' first count).foldr (fun i b => siftDown lt b.size b i) a).size = a.size := by
    intro count
    induction count with
    | zero =>
      intro first hfirst
      refine ⟨fun j hj hp x y _ hy => ?_, rfl⟩
      have hlt := (Array.getElem?_eq_some_iff.mp hy).1
      unfold parent at hp
      simp only [List.range'_zero, List.foldr_nil] at hlt
      omega
    | succ count ih =>
      intro first hfirst
      obtain ⟨hheap, hsize⟩ := ih (first + 1) (by omega)
      rw [List.range'_succ, List.foldr_cons]
      refine ⟨siftDown_heap hlt ⟨fun j hj hp hne => hheap j hj (by omega),
        fun j hj hp hpos hfirst => ?_⟩ (by omega), by rw [size_siftDown, hsize]⟩
      unfold parent at hfirst
      omega
  unfold rebuild
  rw [List.range_eq_range']
  exact (hsteps (a.size / 2) 0 (by omega)).1

end BinaryHeap
